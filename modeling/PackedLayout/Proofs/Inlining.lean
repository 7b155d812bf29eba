import PackedLayout.Proofs.Echoing
import PackedLayout.Proofs.Merging

/-!
# Structs put in place of their names

A struct that is used by name is laid out once, and its template is copied to where it is used.
Where the copy goes into a body, the fields of the struct can be put there instead, as a record,
and nothing changes.

- `Schema.inline`: a schema with a record in the place of one node;
- `finished_layOutFields`: fields that are put into a body come to a copy of the template that they
  give on their own;
- `echoes_layOutType_inline`, `echoes_layOutType_outline`: each schema lays out what the other one
  lays out;
- `layOut_inline`: both give the same layouts.
-/

namespace PackedLayout

open Relation

/-! ## Fields of a struct, on their own and in a body -/

section

variable {schema : Schema} {w : Width} {mild : Warning → Prop} {layOut : TypeLayout}
  {fields : List Field} {span : Span} {draft after made : Draft} {zones : PerClass Zone}
  {cache later : Cache}

/-- The template of fields that were put into a draft of their own. -/
def Draft.toTemplate (name : String) (footprint : UnitCounts) (draft : Draft) : Template where
  name
  slots := draft.slots
  zones := draft.container.zones
  footprint
  packs := draft.packs
  variants := draft.variants
  trailing := []
  warnings := draft.warnings

/-- The zones of a template keep their sizes, which its footprint counts. -/
theorem Draft.draft_toTemplate {counts : UnitCounts}
    (whole : ∀ a, a.bytes ∣ (made.container.zones.get a).size)
    (counted : footprint? w made.container.zones = some counts) (name : String) :
    (made.toTemplate name counts).draft w = { made with
      container := .arm (zoneItems made.container.zones Alignment.descending).reverse } := by
  obtain ⟨exact_, bytes⟩ := footprint?_spec whole counted
  have sizes : (made.toTemplate name counts).sizedZones w = made.container.zones := by
    refine PerClass.ext_get fun a => ?_
    have size : counts.bytes w a = (made.container.zones.get a).size := by
      rw [exact_.bytes, bytes]
    rw [Template.sizedZones, PerClass.get_ofFn]
    exact congrArg (Zone.mk · _) size
  unfold Template.draft
  rw [sizes]
  rfl

/-- Fields are put into an arm of their own as items that have sizes. -/
theorem exists_arm_of_layOutFields (lays : Lays schema w layOut) (sound : cache.Sound schema w)
    {part : Draft} (done : finished (layOutFields layOut fields .bare) cache = some (part, later)) :
    ∃ items, part.container = .arm items ∧ ∀ item ∈ items, 0 < item.size := by
  have ran := congrArg Prod.fst (finished_eq_some.mp done)
  obtain ⟨shapes, _, grown⟩ :=
    (keeps_layOutFields lays fields (Nat.zero_le _) cache sound).2.of_ok ran
  obtain ⟨items, put, realizes⟩ := grown.items
  have arm : some (Container.arm (items.reverse ++ [])) = some part.container :=
    Container.putAll?_arm.symm.trans put
  refine ⟨_, (Option.some.inj arm).symm, fun item member => ?_⟩
  rw [List.append_nil, List.mem_reverse] at member
  exact (realizes.sound item member).whole.size_pos

/-- Fields that are put into a body come to a copy of the template that they give on their own. -/
theorem finished_layOutFields (lays : Lays schema w layOut) (framed : FramedTypes w layOut)
    (sound : cache.Sound schema w) (room : draft.slots ≤ maxSlots)
    (body : draft.container = .body zones)
    (alone : finished (layOutFields layOut fields .empty) cache = some (made, later))
    {t : Template} (same : t.draft w = { made with
      container := .arm (zoneItems made.container.zones Alignment.descending).reverse }) :
    finished (layOutFields layOut fields draft) cache =
      (draft.embed w span t).toOption.map (·, later) := by
  rw [(framed_layOutFields framed fields).alone (Nat.zero_le _) cache,
    Option.bind_eq_some_iff] at alone
  obtain ⟨⟨part, _⟩, bare, behind⟩ := alone
  obtain ⟨_, joined, same'⟩ := Option.map_eq_some_iff.mp behind
  cases same'
  obtain ⟨items, arm, pos⟩ := exists_arm_of_layOutFields lays sound bare
  rw [(framed_layOutFields framed fields).alone room cache, bare, Option.bind_some,
    Draft.toOption_embed, Draft.join?_template body arm pos joined same]

/-- Fields that were put into a body can be put into a draft of their own, which is clean if the
body is. -/
theorem exists_layOutFields_empty (lays : Lays schema w layOut) (framed : FramedTypes w layOut)
    (sound : cache.Sound schema w) (room : draft.slots ≤ maxSlots)
    (body : draft.container = .body zones)
    (done : finished (layOutFields layOut fields draft) cache = some (after, later))
    (clean : after.Clean w mild) :
    ∃ made, finished (layOutFields layOut fields .empty) cache = some (made, later) ∧
      made.Clean w mild := by
  rw [(framed_layOutFields framed fields).alone room cache, Option.bind_eq_some_iff] at done
  obtain ⟨⟨part, _⟩, bare, behind⟩ := done
  obtain ⟨_, joined, same'⟩ := Option.map_eq_some_iff.mp behind
  cases same'
  obtain ⟨items, arm, pos⟩ := exists_arm_of_layOutFields lays sound bare
  obtain ⟨made, alone, warned, le⟩ := Draft.exists_empty_join? body arm pos joined
  refine ⟨made, ?_, fun warning listed => clean.mild warning ?_, clean.sized.mono le⟩
  · rw [(framed_layOutFields framed fields).alone (Nat.zero_le _) cache, bare, Option.bind_some,
      alone]
    rfl
  · obtain ⟨_, _, _, rfl⟩ := Draft.join?_eq_some.mp joined
    exact Array.mem_append_right _ (warned ▸ listed)

end

/-! ## Structs without trailing fields, made anew -/

section

variable {setting : Setting} {struct : StructLayout} {name : String} {fields : List Field}
  {span declared : Span} {t : Template} {cache : Cache}

/-- A field that is not trailing is put into the draft. -/
theorem layOutField_of_fixed {field : Field} (fixed : setting.schema.isTrailing field = false)
    (draft : Draft) (trailing : List TrailingField) :
    layOutField setting struct (draft, trailing) field =
      layOutNode setting struct field.type draft >>= fun after => pure (after, trailing) := by
  obtain ⟨notString, notDynamic⟩ := Schema.isTrailing_eq_false.mp fixed
  exact (Schema.FieldStep.fixed notString notDynamic).layOutField_eq rfl struct (draft, trailing)

theorem foldlM_layOutField (fixed : ∀ field ∈ fields, setting.schema.isTrailing field = false)
    (draft : Draft) (trailing : List TrailingField) :
    fields.foldlM (layOutField setting struct) (draft, trailing) =
      layOutFields (layOutNode setting struct) fields draft >>= fun after =>
        pure (after, trailing) := by
  induction fields generalizing draft with
  | nil => exact (pure_bind draft fun after => pure (after, trailing)).symm
  | cons field rest ih =>
    rw [List.foldlM_cons, layOutField_of_fixed (fixed field List.mem_cons_self), layOutFields,
      List.foldlM_cons, bind_assoc, bind_assoc]
    refine bind_congr fun after => ?_
    rw [pure_bind]
    exact ih (fun other later => fixed other (List.mem_cons_of_mem _ later)) after

/-- A struct without trailing fields is what its fields come to in a draft of their own. -/
theorem layOutStruct_of_fixed
    (fixed : ∀ field ∈ fields, setting.schema.isTrailing field = false) :
    (layOutStruct setting struct name fields span cache).1 = .ok t ↔
      ∃ made counts, (layOutFields (layOutNode setting struct) fields .empty cache).1 = .ok made ∧
        footprint? setting.width made.container.zones = some counts ∧
          made.toTemplate name counts = t := by
  unfold layOutStruct
  rw [foldlM_layOutField fixed, bind_assoc, run_bind_eq_ok]
  refine exists_congr fun made => ?_
  simp only [pure_bind]
  cases footprint? setting.width made.container.zones with
  | none => exact ⟨fun h => absurd h.2 nofun, fun ⟨_, _, absent, _⟩ => absurd absent nofun⟩
  | some counts =>
    constructor
    · rintro ⟨laid, same⟩
      exact ⟨counts, laid, rfl, Except.ok.inj same⟩
    · rintro ⟨_, laid, ⟨⟩, rfl⟩
      exact ⟨laid, rfl⟩

/-- The body of a struct, wherever it is not underway. -/
theorem structBody_of_declaration {key : String}
    (declaration : setting.schema.declaration? name = some ⟨key, .struct fields, declared⟩)
    (span : Span) (cache : Cache) (new : name ∉ cache.underway) :
    structBody setting name span cache = (.ok (fields, declared), cache) := by
  have read : (get : EngineM Cache) cache = (.ok cache, cache) := rfl
  simp only [structBody, declaration]
  rw [bind_of_ok read]
  simp only [List.contains_eq_mem, new, decide_false, Bool.false_eq_true, if_false]
  rfl

theorem exists_structBody (known : setting.schema.structFields? name = some fields) :
    ∃ declared, ∀ span (cache : Cache), name ∉ cache.underway →
      structBody setting name span cache = (.ok (fields, declared), cache) := by
  obtain ⟨key, declared, declaration⟩ := Schema.structFields?_eq_some.mp known
  exact ⟨declared, structBody_of_declaration declaration⟩

/-- So it is made anew. -/
theorem anew_of_fixed (known : setting.schema.structFields? name = some fields)
    (fixed : ∀ field ∈ fields, setting.schema.isTrailing field = false) :
    (anew setting name span cache).1 = .ok t ↔
      ∃ made counts,
        (layOutFields (layOutNode setting (anew setting)) fields .empty .empty).1 = .ok made ∧
          footprint? setting.width made.container.zones = some counts ∧
            made.toTemplate name counts = t := by
  obtain ⟨declared, bodies⟩ := exists_structBody known
  rw [anew_eq_ok, ← @layOutStruct_anew _ _ _ _ .empty _ known bodies, layOutStruct_of_fixed fixed]

end

/-- What has a shape is of fixed length. -/
theorem HasShape.isTrailing {schema : Schema} {field : Field} {shape : Shape}
    (hasShape : HasShape schema field.type shape) : schema.isTrailing field = false := by
  unfold Schema.isTrailing
  cases hasShape <;> simp_all

theorem exists_zones_of_isArm {container : Container} (body : container.isArm = false) :
    ∃ zones, container = .body zones := by
  cases container with
  | body zones => exact ⟨zones, rfl⟩
  | arm items => contradiction

/-! ## A record in the place of a name -/

namespace Schema

/-- A type is made of another one. -/
def MadeOf (schema : Schema) (id part : TypeId) : Prop :=
  ∃ form span, schema.type? id = some ⟨form, span⟩ ∧ part ∈ form.parts

/-- A type is another one, or the other one is inside of it. -/
abbrev Contains (schema : Schema) : TypeId → TypeId → Prop := ReflTransGen schema.MadeOf

/-- A type is not in an arm of a variant, anywhere in the type `id`. -/
def OutsideArms (schema : Schema) (n id : TypeId) : Prop :=
  ∀ v arms encoding span, schema.Contains id v →
    schema.type? v = some ⟨.variant arms encoding, span⟩ → ∀ arm ∈ arms, ¬schema.Contains arm n

/-- The schema with a record in the place of a node. -/
def inline (schema : Schema) (n : TypeId) (fields : List Field) : Schema where
  types := ⟨schema.types.items.modify n.raw fun node => { node with form := .record fields }⟩
  declarations := schema.declarations

open scoped Classical in
/-- Types with the node inside of them come after all others. -/
noncomputable def rank (schema : Schema) (n id : TypeId) : Nat :=
  if schema.Contains id n then schema.types.size + id.raw else id.raw

/-- The node of a struct that can be inlined there: the struct is not made of the node, and the node
is in no arm of a variant. -/
structure Inlinable (schema : Schema) (n : TypeId) (name : String) (fields : List Field) :
    Prop where
  ordered : schema.Ordered
  node : ∃ span, schema.type? n = some ⟨.named name, span⟩
  declared : schema.structFields? name = some fields
  outside : ∀ field ∈ fields, ¬schema.Contains field.type n
  sequential : ∀ other fields, schema.structFields? other = some fields →
    ∀ field ∈ fields, schema.OutsideArms n field.type

variable {schema : Schema} {n id part : TypeId} {name : String} {fields : List Field}
  {form : TypeForm} {span : Span}

theorem type?_inline_of_ne (other : id ≠ n) :
    (schema.inline n fields).type? id = schema.type? id := by
  show (schema.types.items.modify n.raw _)[id.raw]? = _
  rw [Array.getElem?_modify, if_neg fun same => other (congrArg Idx.mk same.symm)]
  rfl

theorem type?_inline_self (node : schema.type? n = some ⟨form, span⟩) :
    (schema.inline n fields).type? n = some ⟨.record fields, span⟩ := by
  show (schema.types.items.modify n.raw _)[n.raw]? = _
  rw [Array.getElem?_modify, if_pos rfl]
  exact congrArg (Option.map _) node

theorem OutsideArms.inner (h : schema.OutsideArms n id)
    (node : schema.type? id = some ⟨form, span⟩) (member : part ∈ form.inner) :
    schema.OutsideArms n part :=
  fun v arms encoding span' inside => h v arms encoding span'
    (.head ⟨form, span, node, TypeForm.mem_parts member⟩ inside)

/-- What is inside of a type in an arm stays away from the node as well. -/
theorem OutsideArms.inArm {isArm : Bool} (h : schema.OutsideArms n id)
    (away : isArm = true → ¬schema.Contains id n)
    (node : schema.type? id = some ⟨form, span⟩) (member : part ∈ form.inner)
    (arm : form.inArm isArm = true) : ¬schema.Contains part n := by
  cases form with
  | variant arms encoding => exact h id arms encoding span .refl node part member
  | record fields =>
    exact fun inside => away arm (.head ⟨_, span, node, TypeForm.mem_parts member⟩ inside)
  | _ => contradiction

theorem OutsideArms.laidOut {field : Field} (h : schema.OutsideArms n field.type) :
    schema.OutsideArms n (schema.laidOut field) := by
  unfold Schema.laidOut
  split
  · rename_i element span node
    exact fun v arms encoding span' inside => h v arms encoding span'
      (.head ⟨_, span, node, List.mem_singleton_self element⟩ inside)
  · exact h

namespace Inlinable

variable (h : schema.Inlinable n name fields)

include h

/-- The other forms stay where they are. -/
theorem type?_iff (other : form ≠ .named name) (other' : form ≠ .record fields) :
    (schema.inline n fields).type? id = some ⟨form, span⟩ ↔
      schema.type? id = some ⟨form, span⟩ := by
  by_cases here : id = n
  · obtain ⟨place, node⟩ := h.node
    rw [here, node, type?_inline_self node]
    constructor
    · rintro ⟨⟩
      exact absurd rfl other'
    · rintro ⟨⟩
      exact absurd rfl other
  · rw [type?_inline_of_ne here]

theorem sameTrailing (id : TypeId) : SameTrailing schema (schema.inline n fields) id :=
  ⟨fun _ => h.type?_iff nofun nofun, fun _ _ => h.type?_iff nofun nofun⟩

theorem sameTrailing_symm (id : TypeId) : SameTrailing (schema.inline n fields) schema id :=
  ⟨fun span => ((h.sameTrailing id).string span).symm,
    fun element span => ((h.sameTrailing id).dynamic element span).symm⟩

theorem isTrailing_inline (field : Field) :
    (schema.inline n fields).isTrailing field = false ↔ schema.isTrailing field = false := by
  have strings (span : Span) := (h.sameTrailing field.type).string span
  have arrays (element : TypeId) (span : Span) := (h.sameTrailing field.type).dynamic element span
  simp only [isTrailing_eq_false, ne_eq, strings, arrays]

theorem laidOut_inline (field : Field) :
    (schema.inline n fields).laidOut field = schema.laidOut field := by
  by_cases dynamic : ∃ element span, schema.type? field.type = some ⟨.array element .dynamic, span⟩
  · obtain ⟨element, span, node⟩ := dynamic
    rw [laidOut_eq_element node,
      laidOut_eq_element (((h.sameTrailing field.type).dynamic element span).mpr node)]
  · have plain (element : TypeId) (span : Span) :
        schema.type? field.type ≠ some ⟨.array element .dynamic, span⟩ :=
      fun node => dynamic ⟨element, span, node⟩
    rw [laidOut_eq_type plain, laidOut_eq_type fun element span node =>
      plain element span (((h.sameTrailing field.type).dynamic element span).mp node)]

/-- In the inlined schema types are made of types of smaller rank. -/
theorem rank_falls (id : TypeId) (form : TypeForm) (span : Span)
    (node : (schema.inline n fields).type? id = some ⟨form, span⟩) (part : TypeId)
    (member : part ∈ form.inner) : schema.rank n part < schema.rank n id := by
  unfold rank
  obtain ⟨place, self⟩ := h.node
  by_cases here : id = n
  · rw [here, type?_inline_self self] at node
    cases node
    obtain ⟨field, listed, rfl⟩ := List.mem_map.mp member
    obtain ⟨_, known⟩ := h.ordered.known name fields h.declared field listed
    have below : field.type.raw < schema.types.size := (Array.getElem?_eq_some_iff.mp known).1
    rw [here, if_neg (h.outside field listed), if_pos .refl]
    omega
  · rw [type?_inline_of_ne here] at node
    have made : schema.MadeOf id part := ⟨form, span, node, TypeForm.mem_parts member⟩
    have earlier := h.ordered.earlier id form span node part (TypeForm.mem_parts member)
    by_cases holds : schema.Contains part n
    · rw [if_pos holds, if_pos (.head made holds)]
      omega
    · rw [if_neg holds]
      split <;> omega

end Inlinable

end Schema

/-! ## Types -/

section

variable {setting : Setting} {struct : StructLayout} {n : TypeId} {name : String}
  {fields : List Field}

def Setting.inline (setting : Setting) (n : TypeId) (fields : List Field) : Setting :=
  { setting with schema := setting.schema.inline n fields }

theorem Setting.sameRules_inline (setting : Setting) (n : TypeId) (fields : List Field) :
    SameRules setting (setting.inline n fields) := ⟨rfl, rfl, rfl⟩

theorem SameRules.symm {setting' : Setting} (rules : SameRules setting setting') :
    SameRules setting' setting :=
  ⟨rules.declarations.symm, rules.strict.symm, rules.width.symm⟩

theorem size_inline (schema : Schema) (n : TypeId) (fields : List Field) :
    (schema.inline n fields).types.size = schema.types.size :=
  Array.size_modify ..

/-- Types can be nested deeper than their ranks in the inlined schema. -/
theorem Schema.rank_lt_maxDepth {id : TypeId} {node : TypeNode}
    (known : (setting.inline n fields).schema.type? id = some node) :
    setting.schema.rank n id < (setting.inline n fields).maxDepth := by
  have below : id.raw < (setting.schema.inline n fields).types.size :=
    (Array.getElem?_eq_some_iff.mp known).1
  have depth : (setting.inline n fields).maxDepth =
      (setting.schema.inline n fields).types.size * (maxSlots + 1) := rfl
  have deep : 2 ≤ maxSlots + 1 := by decide
  have twice := Nat.mul_le_mul_left setting.schema.types.size deep
  rw [size_inline] at below
  rw [depth, size_inline]
  unfold rank
  split <;> omega

/-- A type takes one level more in a schema of ordered types. -/
theorem layOutNode_of_ordered (ordered : setting.schema.Ordered) {id : TypeId} {node : TypeNode}
    (known : setting.schema.type? id = some node) :
    layOutNode setting struct id = layOutForm setting struct (layOutNode setting struct) id := by
  have below : id.raw < setting.maxDepth := Setting.raw_lt_maxDepth known
  refine layOutNode_eq_layOutForm (fun id form span node part member => ?_) below
  exact ordered.earlier id form span node part (TypeForm.mem_parts member)

theorem EchoesType.congr {schema : Schema} {w : Width} {mild : Warning → Prop} {isArm : Bool}
    {layOut layOut' layOut'' : TypeLayout} {id : TypeId} (same : layOut'' id = layOut' id)
    (h : EchoesType schema w mild isArm layOut layOut' id) :
    EchoesType schema w mild isArm layOut layOut'' id := by
  intro draft room kind
  rw [same]
  exact h draft room kind

variable (h : setting.schema.Inlinable n name fields)

include h

/-- So it does where a record was put in. -/
theorem layOutNode_inline {id : TypeId} {node : TypeNode}
    (known : (setting.inline n fields).schema.type? id = some node) :
    layOutNode (setting.inline n fields) struct id = layOutForm (setting.inline n fields) struct
      (layOutNode (setting.inline n fields) struct) id :=
  layOutNode_eq_layOutForm h.rank_falls (Schema.rank_lt_maxDepth known)

/-- A copy of a struct that goes into a body is what its fields come to there. -/
theorem layOutFields_of_named (finds : Finds setting.schema setting.width struct)
    (structs : EchoesStructs setting.schema setting.width (fun _ => True) struct
      (anew (setting.inline n fields))) {span : Span} {draft after : Draft}
    (room : draft.slots ≤ maxSlots) (body : draft.container.isArm = false) {cache : Cache}
    (sound : cache.Sound setting.schema setting.width)
    (done : (layOutNamed setting span struct name draft cache).1 = .ok after) (cache' : Cache) :
    (layOutFields (layOutNode (setting.inline n fields) (anew (setting.inline n fields))) fields
      draft cache').1 = .ok after := by
  have known : (setting.inline n fields).schema.structFields? name = some fields := h.declared
  obtain ⟨key, declared, declaration⟩ := Schema.structFields?_eq_some.mp h.declared
  rw [(Schema.NameStep.struct declaration).layOutNamed_eq rfl] at done
  obtain ⟨t, found, put⟩ := run_bind_eq_ok.mp done
  obtain ⟨sound', here⟩ := (finds name span cache sound).2.of_ok found
  split at put
  case isFalse => contradiction
  rename_i trailing
  have fixed : ∀ field ∈ fields, (setting.inline n fields).schema.isTrailing field = false := by
    intro field member
    have all := sound'.filter_eq (List.isEmpty_iff.mp trailing) (here ▸ h.declared)
    have own := List.filter_eq_self.mp all field member
    exact (h.isTrailing_inline field).mpr (by simpa using own)
  have made := structs name span cache sound t found (fun _ _ => trivial) .empty
  obtain ⟨own, counts, alone, counted, rfl⟩ := (anew_of_fixed known fixed).mp made
  have lays := keeps_layOutNode (finds_anew (setting.inline n fields))
  have framed := framed_layOutType (setting.inline n fields) (anew (setting.inline n fields))
    (setting.inline n fields).maxDepth
  obtain ⟨_, _, grown⟩ :=
    (keeps_layOutFields lays fields (Nat.zero_le _) .empty nofun).2.of_ok alone
  obtain ⟨zones, body⟩ := exists_zones_of_isArm body
  have embedded : draft.embed setting.width span (own.toTemplate name counts) = .ok after := put
  have run := @finished_layOutFields _ _ _ _ span _ _ _ .empty _ lays framed nofun room body
    (finished_eq_some.mpr (Prod.ext alone rfl)) _
    (Draft.draft_toTemplate (grown.body rfl).1 counted name)
  rw [show (setting.inline n fields).width = setting.width from rfl, embedded] at run
  rw [(layOutFields_anew fields draft).run_eq .empty cache']
  exact congrArg Prod.fst (finished_eq_some.mp run)

/-- Types are laid out in the inlined schema as in the schema. -/
theorem echoes_layOutType_inline (finds : Finds setting.schema setting.width struct)
    (made : FindsMade setting struct)
    (structs : EchoesStructs setting.schema setting.width (fun _ => True) struct
      (anew (setting.inline n fields))) (isArm : Bool) (depth : Nat) (id : TypeId)
    (outside : setting.schema.OutsideArms n id)
    (away : isArm = true → ¬setting.schema.Contains id n) :
    EchoesType setting.schema setting.width (fun _ => True) isArm
      (layOutType setting struct depth)
      (layOutNode (setting.inline n fields) (anew (setting.inline n fields))) id := by
  induction depth generalizing isArm id with
  | zero => exact fun draft _ _ => .throw _
  | succ depth ih =>
    rw [layOutType_succ]
    by_cases here : id = n
    · subst here
      obtain ⟨span, node⟩ := h.node
      intro draft room kind cache sound after done _ cache'
      have body : draft.container.isArm = false := by
        rw [kind]
        exact Bool.eq_false_iff.mpr fun arm => away arm .refl
      have node' := @Schema.type?_inline_self _ _ fields _ _ node
      rw [(Schema.TypeStep.named node).layOutForm_eq rfl] at done
      rw [layOutNode_inline h node', (Schema.TypeStep.record node').layOutForm_eq rfl]
      exact layOutFields_of_named h finds structs room body sound done cache'
    · cases known : setting.schema.type? id with
      | none =>
        intro draft _ _
        rw [(Schema.TypeStep.refused (.unknown known)).layOutForm_eq rfl]
        exact .throw _
      | some node =>
        have known' : (setting.inline n fields).schema.type? id = some node :=
          (Schema.type?_inline_of_ne here).trans known
        refine .congr (layOutNode_inline h known') ?_
        refine echoes_layOutForm (setting.sameRules_inline n fields) (known'.trans known.symm) finds
          structs (fun _ _ _ _ resolved _ => resolved) (keeps_layOutType finds depth)
          (ends_layOutType_puts finds made depth).accumulates fun form span node part member => ?_
        exact ih _ part (outside.inner node member) (outside.inArm away node member)

/-- Fields that are put into a body come to what a copy of their struct comes to there. -/
theorem layOutNamed_of_fields {depth : Nat}
    (finds : Finds (setting.inline n fields).schema setting.width struct)
    (made : FindsMade (setting.inline n fields) struct)
    (each : ∀ field ∈ fields, EchoesType (setting.inline n fields).schema setting.width
      (fun _ => True) false (layOutType (setting.inline n fields) struct depth)
      (layOutNode setting (anew setting)) field.type)
    {span : Span} {draft after : Draft} (room : draft.slots ≤ maxSlots)
    (body : draft.container.isArm = false) {cache : Cache}
    (sound : cache.Sound (setting.inline n fields).schema setting.width)
    (done : (layOutFields (layOutType (setting.inline n fields) struct depth) fields draft
      cache).1 = .ok after)
    (clean : after.Clean setting.width fun _ => True) (cache' : Cache) :
    (layOutNamed setting span (anew setting) name draft cache').1 = .ok after := by
  have lays : Lays (setting.inline n fields).schema setting.width
      (layOutType (setting.inline n fields) struct depth) := keeps_layOutType finds depth
  have framed : FramedTypes setting.width (layOutType (setting.inline n fields) struct depth) :=
    framed_layOutType (setting.inline n fields) struct depth
  have accumulates : Accumulates (setting.inline n fields).schema setting.width
      (layOutType (setting.inline n fields) struct depth) :=
    (ends_layOutType_puts finds made depth).accumulates
  obtain ⟨zones, body⟩ := exists_zones_of_isArm body
  have ran := finished_eq_some.mpr (Prod.ext done rfl)
  obtain ⟨own, alone, clean⟩ := exists_layOutFields_empty lays framed sound room body ran clean
  have laid := congrArg Prod.fst (finished_eq_some.mp alone)
  obtain ⟨shapes, related, grown⟩ :=
    (keeps_layOutFields lays fields (Nat.zero_le _) cache sound).2.of_ok laid
  have whole := (grown.body rfl).1
  obtain ⟨counts, counted⟩ := (exists_footprint?_iff whole).mpr clean.sized
  have fixed : ∀ field ∈ fields, setting.schema.isTrailing field = false := by
    intro field member
    obtain ⟨shape, _, hasShape⟩ :=
      exists_right_of_mem related (List.mem_map_of_mem (f := Field.type) member)
    exact (h.isTrailing_inline field).mp hasShape.isTrailing
  have echoed := echoes_layOutFields (settles lays accumulates) each (Nat.zero_le _) rfl cache sound
    own laid clean .empty
  obtain ⟨key, _, declaration⟩ := Schema.structFields?_eq_some.mp h.declared
  have found : (anew setting name span cache').1 = .ok (own.toTemplate name counts) :=
    (anew_of_fixed h.declared fixed).mpr ⟨own, counts, echoed, counted, rfl⟩
  have run := @finished_layOutFields _ _ _ _ span _ _ _ _ _ lays framed sound room body alone _
    (Draft.draft_toTemplate whole counted name)
  rw [ran] at run
  have embedded : draft.embed setting.width span (own.toTemplate name counts) = .ok after := by
    obtain ⟨_, put, same⟩ := Option.map_eq_some_iff.mp run.symm
    cases same
    exact toOption_eq_some.mp put
  rw [(Schema.NameStep.struct declaration).layOutNamed_eq rfl]
  refine run_bind_eq_ok.mpr ⟨_, found, ?_⟩
  rw [if_pos (show (own.toTemplate name counts).trailing.isEmpty = true from rfl), embedded]
  rfl

/-- Types are laid out in the schema as in the inlined schema. -/
theorem echoes_layOutType_outline
    (finds : Finds (setting.inline n fields).schema setting.width struct)
    (made : FindsMade (setting.inline n fields) struct)
    (structs : EchoesStructs (setting.inline n fields).schema setting.width (fun _ => True) struct
      (anew setting)) (isArm : Bool) (depth : Nat) (id : TypeId)
    (outside : setting.schema.OutsideArms n id)
    (away : isArm = true → ¬setting.schema.Contains id n) :
    EchoesType (setting.inline n fields).schema setting.width (fun _ => True) isArm
      (layOutType (setting.inline n fields) struct depth) (layOutNode setting (anew setting))
      id := by
  induction depth generalizing isArm id with
  | zero => exact fun draft _ _ => .throw _
  | succ depth ih =>
    rw [layOutType_succ]
    by_cases here : id = n
    · subst here
      obtain ⟨span, node⟩ := h.node
      intro draft room kind cache sound after done clean cache'
      have body : draft.container.isArm = false := by
        rw [kind]
        exact Bool.eq_false_iff.mpr fun arm => away arm .refl
      have node' := @Schema.type?_inline_self _ _ fields _ _ node
      have each (field : Field) (member : field ∈ fields) :=
        ih false field.type (h.sequential name fields h.declared field member) nofun
      rw [(Schema.TypeStep.record node').layOutForm_eq rfl] at done
      rw [layOutNode_of_ordered h.ordered node, (Schema.TypeStep.named node).layOutForm_eq rfl]
      exact layOutNamed_of_fields h finds made each room body sound done clean cache'
    · have node : (setting.inline n fields).schema.type? id = setting.schema.type? id :=
        Schema.type?_inline_of_ne here
      cases known : setting.schema.type? id with
      | none =>
        intro draft _ _
        rw [(Schema.TypeStep.refused (.unknown known)).layOutForm_eq node]
        exact .throw _
      | some entry =>
        refine .congr (layOutNode_of_ordered h.ordered known) ?_
        refine echoes_layOutForm (setting.sameRules_inline n fields).symm node.symm finds
          structs (fun _ _ _ _ resolved _ => resolved) (keeps_layOutType finds depth)
          (ends_layOutType_puts finds made depth).accumulates fun form span known' part member => ?_
        rw [node] at known'
        exact ih _ part (outside.inner known' member) (outside.inArm away known' member)

/-! ## Structs -/

theorem echoes_freshTemplate_inline (depth : Nat) :
    EchoesStructs setting.schema setting.width (fun _ => True) (freshTemplate setting depth)
      (anew (setting.inline n fields)) := by
  refine echoes_freshTemplate (setting.sameRules_inline n fields)
    (fun depth structs name' fields' span declared => ?_) depth
  have finds := finds_freshTemplate setting depth
  have made := ends_freshTemplate_makes setting depth
  refine echoes_layOutStruct finds made (setting.sameRules_inline n fields) declared
    fun field member => ⟨h.sameTrailing field.type, ?_⟩
  exact echoes_layOutType_inline h finds made structs false setting.maxDepth _
    (h.sequential name' fields' declared field member).laidOut nofun

theorem echoes_freshTemplate_outline (depth : Nat) :
    EchoesStructs (setting.inline n fields).schema setting.width (fun _ => True)
      (freshTemplate (setting.inline n fields) depth) (anew setting) := by
  refine echoes_freshTemplate (setting.sameRules_inline n fields).symm
    (fun depth structs name' fields' span declared => ?_) depth
  have finds := finds_freshTemplate (setting.inline n fields) depth
  have made := ends_freshTemplate_makes (setting.inline n fields) depth
  refine echoes_layOutStruct finds made (setting.sameRules_inline n fields).symm declared
    fun field member => ⟨h.sameTrailing_symm field.type, ?_⟩
  have outside := (h.sequential name' fields' declared field member).laidOut
  rw [← h.laidOut_inline] at outside
  exact echoes_layOutType_outline h finds made structs false (setting.inline n fields).maxDepth _
    outside nofun

end

/-! ## Roots -/

section

variable {schema : Schema} {n : TypeId} {name : String} {fields : List Field}

theorem Schema.Inlinable.layOut_iff (h : schema.Inlinable n name fields) (root : String)
    (options : Options) (layout : Layout) :
    schema.layOut root options = .ok layout ↔
      (schema.inline n fields).layOut root options = .ok layout := by
  have h : (Setting.mk schema options .bits64).schema.Inlinable n name fields := h
  constructor
  · exact fun laid => layOut_of_echoes (Setting.sameRules_inline _ n fields)
      (echoes_freshTemplate_inline h _) laid fun _ _ => trivial
  · exact fun laid => layOut_of_echoes (Setting.sameRules_inline _ n fields).symm
      (echoes_freshTemplate_outline h _) laid fun _ _ => trivial

/-- A type with nothing of the node in it has the node in none of its arms. -/
theorem Schema.OutsideArms.of_not_contains {id : TypeId} (away : ¬schema.Contains id n) :
    schema.OutsideArms n id :=
  fun _ _ _ _ inside node _ member within =>
    away (inside.trans (.head ⟨_, _, node, member⟩ within))

/-- A struct can be put in the place of its name. Where the name of a struct stands at one node,
and the node is in one other struct only, under records and arrays but in no arm of a variant, a
record of the fields gives the same layouts: every root has a layout in both schemas or in none,
and it is the same one. A struct that does not reach the one with the node is another one. -/
theorem layOut_inline {outer : String} {span : Span} (ordered : schema.Ordered)
    (node : schema.type? n = some ⟨.named name, span⟩)
    (declared : schema.structFields? name = some fields)
    (sole : ∀ other fields', schema.structFields? other = some fields' → ∀ field ∈ fields',
      schema.Contains field.type n → other = outer ∧ schema.OutsideArms n field.type)
    (apart : name ≠ outer) (root : String) (options : Options) (layout : Layout) :
    schema.layOut root options = .ok layout ↔
      (schema.inline n fields).layOut root options = .ok layout := by
  have inlinable : schema.Inlinable n name fields := by
    refine ⟨ordered, ⟨span, node⟩, declared, fun field member inside => ?_,
      fun other fields' declared' field member => ?_⟩
    · exact apart (sole name fields declared field member inside).1
    · by_cases inside : schema.Contains field.type n
      · exact (sole other fields' declared' field member inside).2
      · exact .of_not_contains inside
  exact inlinable.layOut_iff root options layout

/-- Two locks in a gate, each with a variant. -/
def gates : Schema where
  types := ⟨#[⟨.primitive .uint32, .dummy⟩, ⟨.primitive .uint8, .dummy⟩,
    ⟨.variant [⟨0⟩, ⟨1⟩] .fixed, .dummy⟩, ⟨.named "Lock", .dummy⟩,
    ⟨.array ⟨3⟩ (.fixed 2), .dummy⟩]⟩
  declarations := [⟨"Lock", .struct [⟨"code", ⟨0⟩, .dummy⟩, ⟨"mode", ⟨2⟩, .dummy⟩], .dummy⟩,
    ⟨"Gate", .struct [⟨"id", ⟨1⟩, .dummy⟩, ⟨"locks", ⟨4⟩, .dummy⟩], .dummy⟩]

def lockFields : List Field := [⟨"code", ⟨0⟩, .dummy⟩, ⟨"mode", ⟨2⟩, .dummy⟩]

theorem Schema.Contains.raw_le {id part : TypeId} (ordered : schema.Ordered)
    (inside : schema.Contains id part) : part.raw ≤ id.raw := by
  induction inside with
  | refl => exact Nat.le_refl _
  | tail _ made ih =>
    obtain ⟨form, span, node, member⟩ := made
    exact Nat.le_trans (Nat.le_of_lt (ordered.earlier _ form span node _ member)) ih

/-- The locks are one array, so the copy of the struct is repeated with its variant. -/
theorem layOut_inline_gates :
    ∃ layout, gates.layOut "Gate" .default = .ok layout ∧
      (gates.inline ⟨3⟩ lockFields).layOut "Gate" .default = .ok layout ∧
      layout.packs.size = 2 ∧ layout.variants.size = 1 := by
  have ordered : gates.Ordered := by decide
  have arms (id : TypeId) : gates.OutsideArms ⟨3⟩ id := by
    intro v arms encoding span _ node arm member inside
    have late : 3 ≤ arm.raw := inside.raw_le ordered
    have early := ordered.earlier v _ span node arm member
    have known : v.raw < 5 := (Array.getElem?_eq_some_iff.mp node).1
    have here : v = ⟨4⟩ := congrArg Idx.mk (show v.raw = 4 by omega)
    have array : gates.type? ⟨4⟩ = some ⟨.array ⟨3⟩ (.fixed 2), .dummy⟩ := rfl
    rw [here, array] at node
    cases node
  have sole (other : String) (fields' : List Field)
      (declared : gates.structFields? other = some fields') (field : Field)
      (member : field ∈ fields')
      (inside : gates.Contains field.type ⟨3⟩) :
      other = "Gate" ∧ gates.OutsideArms ⟨3⟩ field.type := by
    obtain ⟨key, place, declaration⟩ := Schema.structFields?_eq_some.mp declared
    have named : key = other := by simpa using List.find?_some declaration
    have listed := List.mem_of_find?_eq_some declaration
    simp only [gates, List.mem_cons, Declaration.mk.injEq, DeclarationKind.struct.injEq,
      List.not_mem_nil, or_false] at listed
    have late : 3 ≤ field.type.raw := inside.raw_le ordered
    obtain ⟨rfl, rfl, _⟩ | ⟨rfl, rfl, _⟩ := listed
    · simp only [List.mem_cons, List.not_mem_nil, or_false] at member
      obtain rfl | rfl := member <;> contradiction
    · exact ⟨named.symm, arms field.type⟩
  have node : gates.type? ⟨3⟩ = some ⟨.named "Lock", .dummy⟩ := rfl
  have declared : gates.structFields? "Lock" = some lockFields := rfl
  obtain ⟨layout, laid, packs, variants⟩ : ∃ layout, gates.layOut "Gate" .default = .ok layout ∧
      layout.packs.size = 2 ∧ layout.variants.size = 1 := ⟨_, by cbv, rfl, rfl⟩
  have same := layOut_inline ordered node declared sole (by decide) "Gate" .default layout
  exact ⟨layout, laid, same.mp laid, packs, variants⟩

end

end PackedLayout
