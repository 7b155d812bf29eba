import Mathlib.Data.List.Flatten
import PackedLayout.Proofs.Inlining
import PackedLayout.Proofs.Measuring

/-!
# Fields of variable length beside the others

A field of variable length puts nothing into the draft of its struct. It leaves an entry and the
warnings about its element, so the other fields are laid out as if it was not there.

- `Setting.entries`, `Setting.reports`: what a field leaves among the trailing fields and among the
  warnings;
- `Schema.Drops`: some trailing fields are left out;
- `foldlM_layOutField_drops`, `layOutStruct_drops`: the other fields come to the same;
- `Setting.redeclare`: a setting with other fields for one struct;
- `Template.Fresh.redeclare`, `Template.Fresh.drops`: what the struct refers to is made anew as
  before, and the struct itself without what was left out;
- `layOut_drops`: a root without some of its trailing fields.
-/

namespace PackedLayout

open Relation

/-! ## What a field leaves -/

namespace Setting

/-- What an engine of its own measures the element of a dynamic array to, with the warnings about
it. -/
def measured? (setting : Setting) (element : TypeId) : Option (UnitCounts × Array Warning) :=
  (elementFootprint setting (template setting setting.schema.declarations.length) element
    .empty).1.toOption

/-- The entries of a field among the trailing ones. -/
def entries (setting : Setting) (field : Field) : List TrailingField :=
  match setting.schema.type? field.type with
  | some ⟨.string, _⟩ => [⟨field.name, 1, .one⟩]
  | some ⟨.array element .dynamic, _⟩ =>
    match setting.measured? element with
    | some (counts, _) => counts.largest?.toList.map fun align =>
        ⟨field.name, counts.totalBytes setting.width, align⟩
    | none => []
  | _ => []

/-- The warnings about a field: about its element where the element is measured, and about its type
where the type is put in. -/
def reports (setting : Setting) (field : Field) : List Warning :=
  match setting.schema.type? field.type with
  | some ⟨.string, _⟩ => []
  | some ⟨.array element .dynamic, _⟩ => (setting.measured? element).elim [] (·.2.toList)
  | _ => (layOutNode setting (template setting setting.schema.declarations.length) field.type .bare
      .empty).1.toOption.elim [] (·.warnings.toList)

end Setting

section Fields

variable {setting : Setting} {field : Field} {element : TypeId} {span : Span} {cache : Cache}

/-- A struct that is made anew is found by an engine of its own. -/
theorem foundAlike_anew (setting : Setting) (id : TypeId) :
    FoundAlike setting.schema (fun c c' => Certifies setting [] c' c) (fun _ => True)
      (anew setting) (template setting setting.schema.declarations.length) id :=
  fun _ _ _ span => agree_anew_template span (trail_nil _) nofun

theorem measured?_of_anew {r : UnitCounts × Array Warning}
    (measured : (elementFootprint setting (anew setting) element cache).1 = .ok r) :
    setting.measured? element = some r := by
  have alike := (agree_elementFootprint (foundAlike_anew setting element)).alike (c := cache)
    ⟨Cache.certified_empty setting, rfl⟩
  unfold Setting.measured?
  rw [(alike.ok measured).1]
  rfl

namespace Setting

theorem entries_string (node : setting.schema.type? field.type = some ⟨.string, span⟩) :
    setting.entries field = [⟨field.name, 1, .one⟩] := by
  unfold entries
  rw [node]

theorem reports_string (node : setting.schema.type? field.type = some ⟨.string, span⟩) :
    setting.reports field = [] := by
  unfold reports
  rw [node]

theorem entries_dynamic {r : UnitCounts × Array Warning} {align : Alignment}
    (node : setting.schema.type? field.type = some ⟨.array element .dynamic, span⟩)
    (measured : (elementFootprint setting (anew setting) element cache).1 = .ok r)
    (largest : r.1.largest? = some align) :
    setting.entries field = [⟨field.name, r.1.totalBytes setting.width, align⟩] := by
  unfold entries
  rw [node]
  dsimp only
  rw [measured?_of_anew measured]
  dsimp only
  rw [largest]
  rfl

theorem reports_dynamic {r : UnitCounts × Array Warning}
    (node : setting.schema.type? field.type = some ⟨.array element .dynamic, span⟩)
    (measured : (elementFootprint setting (anew setting) element cache).1 = .ok r) :
    setting.reports field = r.2.toList := by
  unfold reports
  rw [node]
  dsimp only
  rw [measured?_of_anew measured]
  rfl

theorem entries_fixed (fixed : setting.schema.isTrailing field = false) :
    setting.entries field = [] := by
  obtain ⟨notString, notDynamic⟩ := Schema.isTrailing_eq_false.mp fixed
  unfold entries
  split
  · rename_i node
    exact absurd node (notString _)
  · rename_i node
    exact absurd node (notDynamic _ _)
  · rfl

theorem reports_fixed {part : Draft} (fixed : setting.schema.isTrailing field = false)
    (laid : (layOutNode setting (anew setting) field.type .bare cache).1 = .ok part) :
    setting.reports field = part.warnings.toList := by
  obtain ⟨notString, notDynamic⟩ := Schema.isTrailing_eq_false.mp fixed
  have alike := (agree_layOutType setting.maxDepth .bare (foundAlike_anew setting field.type)).alike
    (c := cache) ⟨Cache.certified_empty setting, rfl⟩
  unfold reports
  split
  · rename_i node
    exact absurd node (notString _)
  · rename_i node
    exact absurd node (notDynamic _ _)
  · show Option.elim (Except.toOption _) _ _ = _
    rw [layOutNode, (alike.ok laid).1]
    rfl

end Setting

/-! ## Fields one after the other -/

/-- A draft with what the fields so far have left. -/
def leaving (warnings : List Warning) (entries : List TrailingField) (draft : Draft) :
    Draft × List TrailingField :=
  ({ draft with warnings := warnings.toArray }, entries.reverse)

theorem Schema.exists_of_isTrailing {schema : Schema} (trailing : schema.isTrailing field = true) :
    (∃ span, schema.type? field.type = some ⟨.string, span⟩) ∨
      ∃ element span, schema.type? field.type = some ⟨.array element .dynamic, span⟩ := by
  by_contra neither
  obtain ⟨notString, notDynamic⟩ := not_or.mp neither
  have fixed : schema.isTrailing field = false := Schema.isTrailing_eq_false.mpr
    ⟨fun span node => notString ⟨span, node⟩, fun element span node =>
      notDynamic ⟨element, span, node⟩⟩
  exact absurd (trailing.symm.trans fixed) nofun

/-- A dynamic array leaves its entry and the warnings about its element. -/
theorem layOutField_of_dynamic {struct : StructLayout} {sofar next : Draft × List TrailingField}
    (node : setting.schema.type? field.type = some ⟨.array element .dynamic, span⟩) :
    (layOutField setting struct sofar field cache).1 = .ok next ↔
      ∃ r align, (elementFootprint setting struct element cache).1 = .ok r ∧
        r.1.largest? = some align ∧
        ({ sofar.1 with warnings := sofar.1.warnings ++ r.2 },
          ⟨field.name, r.1.totalBytes setting.width, align⟩ :: sofar.2) = next := by
  rw [(Schema.FieldStep.dynamic node).layOutField_eq rfl, run_bind_eq_ok]
  refine exists_congr fun r => ?_
  obtain ⟨footprint, warnings⟩ := r
  dsimp only
  cases footprint.largest? with
  | none => exact ⟨fun h => absurd h.2 nofun, fun ⟨_, _, absent, _⟩ => absurd absent nofun⟩
  | some align =>
    constructor
    · rintro ⟨measured, done⟩
      exact ⟨align, measured, rfl, Except.ok.inj done⟩
    · rintro ⟨_, measured, ⟨⟩, rfl⟩
      exact ⟨measured, rfl⟩

/-- What is put in behind a draft does not depend on the warnings of the draft. -/
theorem Draft.join?_warnings {w : Width} {draft part after : Draft}
    (joined : draft.join? w part = some after) (warnings : Array Warning) :
    Draft.join? w { draft with warnings } part =
      some { after with warnings := warnings ++ part.warnings } := by
  obtain ⟨room, container, behind, rfl⟩ := join?_eq_some.mp joined
  exact join?_eq_some.mpr ⟨room, container, behind, rfl⟩

/-- A type is put into a draft alike whatever its warnings are, and reports the same. -/
theorem layOutNode_warnings {id : TypeId} {draft after : Draft} (room : draft.slots ≤ maxSlots)
    (laid : (layOutNode setting (anew setting) id draft cache).1 = .ok after) :
    after.slots ≤ maxSlots ∧
      ∃ part, (layOutNode setting (anew setting) id .bare cache).1 = .ok part ∧ ∀ warnings cache,
        (layOutNode setting (anew setting) id { draft with warnings } cache).1 =
          .ok { after with warnings := warnings ++ part.warnings } := by
  have framed (before : Draft) :=
    framed_layOutType setting (anew setting) setting.maxDepth before id
  obtain ⟨part, bare, joined⟩ := ((framed draft).run_eq_ok room).mp laid
  have steady : Steady (layOutType setting (anew setting) setting.maxDepth id .bare) :=
    layOutType_anew setting.maxDepth id .bare
  refine ⟨?_, part, bare, fun warnings cache' => ?_⟩
  · obtain ⟨fits, _, _, rfl⟩ := Draft.join?_eq_some.mp joined
    exact fits
  · exact ((framed { draft with warnings }).run_eq_ok room).mpr
      ⟨part, (steady.run_eq cache cache').trans bare, Draft.join?_warnings joined warnings⟩

/-- A field leaves its entries and its reports, whatever the fields before it have left. One of
variable length leaves nothing else. -/
theorem layOutField_leaving {warnings : List Warning} {entries : List TrailingField}
    {draft : Draft} {next : Draft × List TrailingField} (room : draft.slots ≤ maxSlots)
    (laid : (layOutField setting (anew setting) (leaving warnings entries draft) field
      cache).1 = .ok next) :
    ∃ after : Draft, after.slots ≤ maxSlots ∧
      (setting.schema.isTrailing field = true → after = draft) ∧
      ∀ warnings entries cache,
        (layOutField setting (anew setting) (leaving warnings entries draft) field cache).1 =
          .ok (leaving (warnings ++ setting.reports field) (entries ++ setting.entries field)
            after) := by
  cases trailing : setting.schema.isTrailing field with
  | true =>
    refine ⟨draft, room, fun _ => rfl, fun warnings entries cache => ?_⟩
    obtain ⟨span, node⟩ | ⟨element, span, node⟩ := Schema.exists_of_isTrailing trailing
    · rw [(Schema.FieldStep.string node).layOutField_eq rfl, Setting.reports_string node,
        Setting.entries_string node]
      refine congrArg Except.ok ?_
      simp [leaving]
    · obtain ⟨r, align, measured, largest, _⟩ := (layOutField_of_dynamic node).mp laid
      rw [Setting.reports_dynamic node measured, Setting.entries_dynamic node measured largest]
      refine (layOutField_of_dynamic node).mpr ⟨r, align, ?_, largest, ?_⟩
      · exact ((elementFootprint_anew element).run_eq _ _).trans measured
      · simp [leaving]
  | false =>
    rw [leaving, layOutField_of_fixed trailing, run_bind_eq_ok] at laid
    obtain ⟨after, laid, _⟩ := laid
    obtain ⟨fits, part, bare, run⟩ := layOutNode_warnings
      (show Draft.slots { draft with warnings := warnings.toArray } ≤ maxSlots from room) laid
    refine ⟨after, fits, nofun, fun warnings entries cache => ?_⟩
    rw [leaving, layOutField_of_fixed trailing, run_bind_eq_ok]
    refine ⟨_, run warnings.toArray cache, ?_⟩
    rw [Setting.reports_fixed trailing bare, Setting.entries_fixed trailing, List.append_nil]
    refine congrArg Except.ok ?_
    simp [leaving]

/-! ## Fields left out -/

/-- Some fields of variable length are left out. -/
inductive Schema.Drops (schema : Schema) : List Field → List Field → Prop
  | nil : Drops schema [] []
  | keep {field : Field} {fields rest : List Field} (drops : Drops schema fields rest) :
    Drops schema (field :: fields) (field :: rest)
  | drop {field : Field} {fields rest : List Field}
    (trailing : schema.isTrailing field = true) (drops : Drops schema fields rest) :
    Drops schema (field :: fields) rest

theorem Schema.Drops.sublist {schema : Schema} {fields rest : List Field}
    (drops : schema.Drops fields rest) : rest.Sublist fields := by
  induction drops with
  | nil => exact .slnil
  | keep _ ih => exact ih.cons_cons _
  | drop _ _ ih => exact ih.cons _

/-- The other fields come to the same when some are left out, and leave what they leave. -/
theorem foldlM_layOutField_drops {fields rest : List Field} {warnings : List Warning}
    {entries : List TrailingField} {draft : Draft} {next : Draft × List TrailingField}
    (drops : setting.schema.Drops fields rest) (room : draft.slots ≤ maxSlots)
    (laid : (fields.foldlM (layOutField setting (anew setting)) (leaving warnings entries draft)
      cache).1 = .ok next) :
    ∃ after,
      next = leaving (warnings ++ fields.flatMap setting.reports)
        (entries ++ fields.flatMap setting.entries) after ∧
      ∀ warnings entries cache,
        (rest.foldlM (layOutField setting (anew setting)) (leaving warnings entries draft)
          cache).1 = .ok (leaving (warnings ++ rest.flatMap setting.reports)
            (entries ++ rest.flatMap setting.entries) after) := by
  induction drops generalizing warnings entries draft cache with
  | nil =>
    refine ⟨draft, ?_, fun warnings entries cache => ?_⟩
    · simp only [List.flatMap_nil, List.append_nil]
      exact (Except.ok.inj laid).symm
    · simp only [List.flatMap_nil, List.append_nil]
      rfl
  | @keep field fields rest _ ih =>
    rw [List.foldlM_cons, run_bind_eq_ok] at laid
    obtain ⟨now, first, laid⟩ := laid
    obtain ⟨mid, room, _, step⟩ := layOutField_leaving room first
    obtain rfl := Except.ok.inj ((step warnings entries cache).symm.trans first)
    obtain ⟨after, rfl, run⟩ := ih room laid
    refine ⟨after, by simp, fun warnings entries cache => ?_⟩
    rw [List.foldlM_cons, run_bind_eq_ok]
    refine ⟨_, step warnings entries cache, ?_⟩
    rw [run]
    simp
  | @drop field fields rest trailing _ ih =>
    rw [List.foldlM_cons, run_bind_eq_ok] at laid
    obtain ⟨now, first, laid⟩ := laid
    obtain ⟨mid, room, same, step⟩ := layOutField_leaving room first
    obtain rfl := same trailing
    obtain rfl := Except.ok.inj ((step warnings entries cache).symm.trans first)
    obtain ⟨after, rfl, run⟩ := ih room laid
    exact ⟨after, by simp, run⟩

/-- The elements of all dynamic arrays have been measured. -/
theorem measured_of_foldlM_layOutField {fields : List Field}
    {sofar next : Draft × List TrailingField}
    (laid : (fields.foldlM (layOutField setting (anew setting)) sofar cache).1 = .ok next)
    (member : field ∈ fields)
    (node : setting.schema.type? field.type = some ⟨.array element .dynamic, span⟩) :
    ∃ r align, (elementFootprint setting (anew setting) element .empty).1 = .ok r ∧
      r.1.largest? = some align := by
  induction fields generalizing sofar cache with
  | nil => exact absurd member List.not_mem_nil
  | cons other rest ih =>
    rw [List.foldlM_cons, run_bind_eq_ok] at laid
    obtain ⟨now, first, laid⟩ := laid
    obtain rfl | later := List.mem_cons.mp member
    · obtain ⟨r, align, measured, largest, _⟩ := (layOutField_of_dynamic node).mp first
      exact ⟨r, align, ((elementFootprint_anew element).run_eq _ _).trans measured, largest⟩
    · exact ih laid later

/-- A struct without some of its fields of variable length has the same fixed part. -/
theorem layOutStruct_drops {fields rest : List Field} {name : String} {t : Template}
    (drops : setting.schema.Drops fields rest)
    (laid : (layOutStruct setting (anew setting) name fields span cache).1 = .ok t) :
    t.trailing = fields.flatMap setting.entries ∧
      t.warnings = (fields.flatMap setting.reports).toArray ∧
      ∀ cache, (layOutStruct setting (anew setting) name rest span cache).1 = .ok { t with
        trailing := rest.flatMap setting.entries
        warnings := (rest.flatMap setting.reports).toArray } := by
  unfold layOutStruct at laid ⊢
  rw [run_bind_eq_ok] at laid
  obtain ⟨next, folded, laid⟩ := laid
  obtain ⟨after, rfl, run⟩ := @foldlM_layOutField_drops _ _ _ _ [] [] .empty _ drops
    (Nat.zero_le _) folded
  dsimp only [leaving] at laid
  cases counted : footprint? setting.width after.container.zones with
  | none =>
    rw [counted] at laid
    contradiction
  | some counts =>
    rw [counted] at laid
    cases laid
    refine ⟨?_, ?_, fun cache => run_bind_eq_ok.mpr ⟨_, run [] [] cache, ?_⟩⟩
    · simp
    · simp
    · dsimp only [leaving]
      rw [counted]
      refine congrArg Except.ok ?_
      simp

end Fields

/-! ## One struct declared anew -/

/-- The setting with other fields for one struct. -/
def Setting.redeclare (setting : Setting) (root : String) (rest : List Field) (place : Span) :
    Setting :=
  { setting with schema := (setting.schema.insert ⟨root, .struct rest, place⟩).2 }

section Redeclaring

variable {setting : Setting} {struct : StructLayout} {root name : String}
  {fields rest : List Field} {place : Span} {t : Template}

theorem declaration?_redeclare_self :
    (setting.redeclare root rest place).schema.declaration? root =
      some ⟨root, .struct rest, place⟩ :=
  (setting.schema.declaration?_insert _ root).trans (if_pos rfl)

theorem declaration?_redeclare_of_ne (other : name ≠ root) :
    (setting.redeclare root rest place).schema.declaration? name =
      setting.schema.declaration? name :=
  (setting.schema.declaration?_insert _ name).trans (if_neg other.symm)

/-- A type mentions what it mentioned before. -/
theorem Mentions.of_redeclare {id : TypeId}
    (mentions : Mentions (setting.redeclare root rest place).schema id name) :
    Mentions setting.schema id name := by
  induction mentions with
  | named node => exact .named node
  | inner node member _ ih => exact .inner node member ih

theorem agree_structBody_redeclare (other : name ≠ root) (span : Span) :
    Agree (· = ·) (fun _ => False) (fun body => setting.schema.structFields? name = some body.1)
      (structBody setting name span)
      (structBody (setting.redeclare root rest place) name span) := by
  rintro cache _ rfl
  have same : structBody (setting.redeclare root rest place) name span =
      structBody setting name span := by
    unfold structBody
    rw [declaration?_redeclare_of_ne other]
  have keeps : Keeps (fun _ => True) External
    (fun body => setting.schema.structFields? name = some body.1) (structBody setting name span) :=
    keeps_structBody name span
  rw [same]
  exact .inr ⟨rfl, rfl, fun body done => (keeps cache trivial).2.of_ok done⟩

variable (declared : setting.schema.declaration? root = some ⟨root, .struct fields, place⟩)

include declared

theorem Refers.of_redeclare (subset : rest ⊆ fields) {other : String}
    (refers : Refers (setting.redeclare root rest place).schema root other) :
    Refers setting.schema root other := by
  obtain ⟨own, field, known, member, mentions, isStruct⟩ := refers
  obtain ⟨_, _, declaration⟩ := Schema.structFields?_eq_some.mp known
  cases declaration?_redeclare_self.symm.trans declaration
  refine ⟨fields, field, Schema.structFields?_eq_some.mpr ⟨_, _, declared⟩, subset member,
    mentions.of_redeclare, ?_⟩
  by_cases same : other = root
  · exact ⟨fields, Schema.structFields?_eq_some.mpr ⟨_, _, same ▸ declared⟩⟩
  · obtain ⟨fields', known'⟩ := isStruct
    obtain ⟨key, span, declaration⟩ := Schema.structFields?_eq_some.mp known'
    rw [declaration?_redeclare_of_ne same] at declaration
    exact ⟨fields', Schema.structFields?_eq_some.mpr ⟨key, span, declaration⟩⟩

/-- Laying out a name asks whether it is a struct, and not for its fields. -/
theorem layOutNamed_redeclare (span : Span) :
    layOutNamed (setting.redeclare root rest place) span struct name =
      layOutNamed setting span struct name := by
  funext draft
  by_cases same : name = root
  · subst same
    rw [(Schema.NameStep.struct declared).layOutNamed_eq rfl,
      (Schema.NameStep.struct declaration?_redeclare_self).layOutNamed_eq rfl]
    rfl
  · obtain ⟨run, step⟩ := setting.schema.exists_nameStep name
    rw [step.layOutNamed_eq rfl, step.layOutNamed_eq (declaration?_redeclare_of_ne same)]
    cases step <;> rfl

theorem layOutType_redeclare (depth : Nat) :
    layOutType (setting.redeclare root rest place) struct depth =
      layOutType setting struct depth := by
  induction depth with
  | zero => rfl
  | succ depth ih =>
    funext id draft
    obtain ⟨run, step⟩ := setting.schema.exists_typeStep id
    rw [layOutType_succ, layOutType_succ, ih,
      @step.layOutForm_eq _ _ _ (setting.redeclare root rest place) rfl, step.layOutForm_eq rfl]
    cases step with
    | named => exact congrFun (layOutNamed_redeclare declared _) draft
    | refused | primitive | string | array | variant | record => rfl

theorem layOutStruct_redeclare :
    layOutStruct (setting.redeclare root rest place) struct = layOutStruct setting struct := by
  have node : layOutNode (setting.redeclare root rest place) struct = layOutNode setting struct :=
    layOutType_redeclare declared setting.maxDepth
  have field : layOutField (setting.redeclare root rest place) struct =
      layOutField setting struct := by
    funext sofar field
    unfold layOutField elementFootprint
    rw [node]
    rfl
  funext name fields span
  unfold layOutStruct
  rw [field]
  rfl

/-- A struct that does not reach the other one is made anew as before. -/
theorem agree_freshTemplate_redeclare (depth : Nat) (span : Span)
    (away : ¬ReflTransGen (Refers setting.schema) name root) :
    Agrees (· = ·) (fun _ => False) (freshTemplate setting depth name span)
      (freshTemplate (setting.redeclare root rest place) depth name span) := by
  induction depth generalizing name span with
  | zero =>
    unfold freshTemplate
    have other : name ≠ root := fun same => away (same ▸ .refl)
    exact (agree_structBody_redeclare other span).bind fun _ _ => Agree.throw _
  | succ depth ih =>
    unfold freshTemplate
    have other : name ≠ root := fun same => away (same ▸ .refl)
    refine (agree_structBody_redeclare other span).bind ?_
    rintro ⟨own, span⟩ known
    dsimp only
    rw [layOutStruct_redeclare declared]
    have inside : Agrees (· = ·) (fun _ => False)
        (layOutStruct setting (freshTemplate setting depth) name own span)
        (layOutStruct setting (freshTemplate (setting.redeclare root rest place) depth) name own
          span) :=
      agree_layOutStruct known span fun next refers span =>
        ih span fun reached => away (reached.head refers)
    exact inside.whileUnderway name (fun _ _ same => congrArg (Cache.enter name) same)
      fun _ _ same => congrArg Cache.leave same

/-- The template of such a struct is fresh in the other schema. -/
theorem Template.Fresh.redeclare (fresh : t.Fresh setting)
    (away : ¬ReflTransGen (Refers setting.schema) t.name root) :
    t.Fresh (setting.redeclare root rest place) := by
  have agree : Agrees (· = ·) (fun _ => False) _
      (freshTemplate (setting.redeclare root rest place) _ t.name .dummy) :=
    agree_freshTemplate_redeclare declared setting.schema.declarations.length .dummy away
  exact (fresh_of_run ((agree.alike rfl).ok (fresh .dummy)).1).1

/-- The fields of a declared struct lead to its fresh template. -/
theorem layOutStruct_of_declaration {cache : Cache} :
    (layOutStruct setting (anew setting) root fields place cache).1 = .ok t ↔
      t.Fresh setting ∧ t.name = root :=
  layOutStruct_anew (Schema.structFields?_eq_some.mpr ⟨_, _, declared⟩)
    (structBody_of_declaration declared)

/-- The elements of its dynamic arrays have been measured. -/
theorem Template.Fresh.exists_measured (fresh : t.Fresh setting) (same : t.name = root)
    {field : Field} {element : TypeId} {span : Span} (member : field ∈ fields)
    (node : setting.schema.type? field.type = some ⟨.array element .dynamic, span⟩) :
    ∃ r align, (elementFootprint setting (anew setting) element .empty).1 = .ok r ∧
      r.1.largest? = some align := by
  have laid : (layOutStruct setting (anew setting) root fields place .empty).1 = .ok t :=
    (layOutStruct_of_declaration declared).mpr ⟨fresh, same⟩
  obtain ⟨_, folded, _⟩ := run_bind_eq_ok.mp laid
  exact measured_of_foldlM_layOutField folded member node

/-- The struct itself is made anew from its other fields. -/
theorem Template.Fresh.drops (fresh : t.Fresh setting) (same : t.name = root)
    (drops : setting.schema.Drops fields rest) :
    t.trailing = fields.flatMap setting.entries ∧
      t.warnings = (fields.flatMap setting.reports).toArray ∧
      Template.Fresh (setting.redeclare root rest place) { t with
        trailing := rest.flatMap setting.entries
        warnings := (rest.flatMap setting.reports).toArray } := by
  have known : (setting.redeclare root rest place).schema.structFields? root = some rest :=
    Schema.structFields?_eq_some.mpr ⟨_, _, declaration?_redeclare_self⟩
  have laid : (layOutStruct setting (anew setting) root fields place .empty).1 = .ok t :=
    (layOutStruct_of_declaration declared).mpr ⟨fresh, same⟩
  obtain ⟨trailing, warnings, run⟩ := layOutStruct_drops drops laid
  -- no struct that the root refers to leads back to it
  have alike (other : String)
      (refers : Refers (setting.redeclare root rest place).schema root other) (span : Span) :
      Agrees (fun _ _ => True) (fun _ => True) (anew setting other span)
        (anew (setting.redeclare root rest place) other span) := by
    intro cache cache' _
    cases found : (anew setting other span cache).1 with
    | error e => exact .inl ⟨e, found, trivial⟩
    | ok s =>
      obtain ⟨own, rfl⟩ := anew_eq_ok.mp found
      have steps := Refers.of_redeclare declared drops.sublist.subset refers
      have away : ¬ReflTransGen (Refers setting.schema) s.name root := fun reached =>
        (same ▸ fresh.acyclic) root .refl (TransGen.head' steps reached)
      exact .inr ⟨(anew_eq_ok.mpr ⟨own.redeclare declared away, rfl⟩).trans found.symm, trivial,
        fun _ _ => trivial⟩
  have run := run .empty
  rw [← layOutStruct_redeclare declared] at run
  have made : (layOutStruct (setting.redeclare root rest place)
      (anew (setting.redeclare root rest place)) root rest place .empty).1 = .ok _ :=
    (((agree_layOutStruct known place alike).alike trivial).ok run).1
  exact ⟨trailing, warnings,
    ((layOutStruct_of_declaration declaration?_redeclare_self).mp made).1⟩

end Redeclaring

/-! ## Roots -/

section Roots

variable {w : Width} {t : Template} {trailing : List TrailingField}

/-- With fewer trailing fields their data needs no larger alignment. -/
theorem Template.exists_varStart? {n : Nat} {start : Option Nat}
    (started : t.varStart? w n = some start) (fewer : trailing ⊆ t.trailing)
    (warnings : Array Warning) :
    ∃ start, varStart? w { t with trailing, warnings } n = some start := by
  unfold varStart? at started ⊢
  dsimp only
  cases found : Alignment.descending.find? fun a => trailing.any (·.align == a) with
  | none => exact ⟨none, rfl⟩
  | some small =>
    have held := List.find?_some found
    obtain ⟨field, member, same⟩ := List.any_eq_true.mp held
    have listed : t.trailing.any (·.align == small) = true :=
      List.any_eq_true.mpr ⟨field, fewer member, same⟩
    cases found' : Alignment.descending.find? fun a => t.trailing.any (·.align == a) with
    | none => exact absurd listed (List.find?_eq_none.mp found' small small.mem_descending)
    | some large =>
      rw [found'] at started
      obtain ⟨_, rounded, _⟩ := Option.map_eq_some_iff.mp started
      obtain ⟨_, checked, _⟩ := Option.map_eq_some_iff.mp rounded
      obtain ⟨fits, _⟩ := Width.checked_eq_some.mp checked
      have le : small.bytes ≤ large.bytes := Alignment.le_of_find?_descending found' listed
      have fits' : w.Fits (n + (small.bytes - 1)) := fits.mono (by omega)
      unfold Alignment.roundUp?
      dsimp only
      rw [Width.checked_eq_some.mpr ⟨fits', rfl⟩]
      exact ⟨_, rfl⟩

/-- The trailing fields and the warnings of a template are those of its layout, and but for where
the trailing data begins they change nothing else. -/
theorem Template.exists_toLayout {layout : Layout} (done : t.toLayout w = .ok layout)
    (fewer : trailing ⊆ t.trailing) (warnings : Array Warning) :
    ∃ varStart, toLayout w { t with trailing, warnings } =
      .ok { layout with trailing, warnings, varStart } := by
  obtain ⟨fields, written, done⟩ := bind_eq_ok.mp done
  obtain ⟨start, started, done⟩ := bind_eq_ok.mp done
  cases done
  cases begun : t.varStart? w (t.footprint.totalBytes w) with
  | none =>
    rw [begun] at started
    contradiction
  | some start' =>
    obtain ⟨start, begun⟩ := exists_varStart? begun fewer warnings
    refine ⟨start, bind_eq_ok.mpr ⟨fields, written, bind_eq_ok.mpr ⟨start, ?_, rfl⟩⟩⟩
    show orOverflow (varStart? w { t with trailing, warnings } (t.footprint.totalBytes w)) = _
    rw [begun]
    rfl

/-- Fields of variable length do not disturb the others. Without any of its strings and dynamic
arrays a root is laid out with the same fields, packs, variants and zones. Its trailing fields and
its warnings are what the fields leave that stay, one after the other. The entry of a dynamic array
tells of the packs that an array of fixed length of the same element adds itself, wherever that one
is laid out. -/
theorem layOut_drops {schema : Schema} {root : String} {options : Options} {layout : Layout}
    {fields rest : List Field} {place : Span}
    (declared : schema.declaration? root = some ⟨root, .struct fields, place⟩)
    (drops : schema.Drops fields rest) (laid : schema.layOut root options = .ok layout) :
    let setting : Setting := { schema, options }
    (layout.trailing = fields.flatMap setting.entries ∧
      layout.warnings.toList = fields.flatMap setting.reports) ∧
    (∃ layout', (schema.insert ⟨root, .struct rest, place⟩).2.layOut root options = .ok layout' ∧
      layout'.name = layout.name ∧ layout'.fields = layout.fields ∧
      layout'.packs = layout.packs ∧ layout'.variants = layout.variants ∧
      layout'.zones = layout.zones ∧ layout'.fixedSize = layout.fixedSize ∧
      layout'.trailing = rest.flatMap setting.entries ∧
      layout'.warnings.toList = rest.flatMap setting.reports) ∧
    ∀ field ∈ fields, ∀ element span,
      schema.type? field.type = some ⟨.array element .dynamic, span⟩ →
      ∃ entry, setting.entries field = [entry] ∧
        ∀ depth (cache : Cache) (draft : Draft) length span after,
          cache.Admits setting depth element → draft.slots ≤ maxSlots →
          (layOutArray setting.width span (layOutNode setting (template setting depth)) element
            length draft cache).1 = .ok after →
          ∃ inner, (layOutNode setting (template setting depth) element
              { draft with container := .emptyBody } cache).1 = .ok inner ∧
            entry.Tells (after.packs.toList.drop inner.packs.size) := by
  intro setting
  have declared : setting.schema.declaration? root = some ⟨root, .struct fields, place⟩ := declared
  have laid : (Engine.layOut ⟨setting, .empty⟩ root).1 = .ok layout := laid
  obtain ⟨t, fresh, same, done⟩ := Engine.layOut_eq_ok.mp laid
  obtain ⟨trailing, warnings, fresh'⟩ := fresh.drops declared same drops
  have read := Template.of_toLayout done
  refine ⟨⟨?_, ?_⟩, ?_, fun field member element span node => ?_⟩
  · rw [congrArg Layout.trailing read, trailing]
  · rw [congrArg Layout.warnings read, warnings]
  · have fewer : rest.flatMap setting.entries ⊆ t.trailing :=
      trailing ▸ (drops.sublist.flatMap setting.entries).subset
    obtain ⟨varStart, done'⟩ := Template.exists_toLayout done fewer
      (rest.flatMap setting.reports).toArray
    have laid' : (Engine.layOut ⟨setting.redeclare root rest place, .empty⟩ root).1 = _ :=
      Engine.layOut_eq_ok.mpr ⟨_, fresh', same, done'⟩
    exact ⟨_, laid', rfl, rfl, rfl, rfl, rfl, rfl, rfl, rfl⟩
  · obtain ⟨r, align, measured, largest⟩ := fresh.exists_measured declared same member node
    refine ⟨_, Setting.entries_dynamic node measured largest, ?_⟩
    intro depth cache draft length span after admits room done
    exact layOutArray_tells measured largest field.name admits room done

/-- A track with marks of 5 bytes, each a variant. -/
def tracks : Schema where
  types := ⟨#[⟨.primitive .uint16, .dummy⟩, ⟨.primitive .uint32, .dummy⟩,
    ⟨.primitive .uint8, .dummy⟩, ⟨.array ⟨2⟩ (.fixed 3), .dummy⟩,
    ⟨.variant [⟨1⟩, ⟨3⟩] .fixed, .dummy⟩, ⟨.array ⟨4⟩ .dynamic, .dummy⟩, ⟨.string, .dummy⟩]⟩
  declarations := [⟨"Track", .struct [⟨"id", ⟨0⟩, .dummy⟩, ⟨"marks", ⟨5⟩, .dummy⟩,
    ⟨"note", ⟨6⟩, .dummy⟩], .dummy⟩]

/-- Without the marks the warning about them is gone. They are told of by an array of two. -/
theorem layOut_drops_tracks :
    let setting : Setting := { schema := tracks, options := { maxSearchBytes := 3 } }
    ∃ layout layout', tracks.layOut "Track" { maxSearchBytes := 3 } = .ok layout ∧
      (tracks.insert ⟨"Track", .struct [⟨"id", ⟨0⟩, .dummy⟩, ⟨"note", ⟨6⟩, .dummy⟩],
        .dummy⟩).2.layOut "Track" { maxSearchBytes := 3 } = .ok layout' ∧
      layout'.fields = layout.fields ∧ layout.warnings.size = 1 ∧ layout'.warnings.toList = [] ∧
      layout'.trailing = [⟨"note", 1, .one⟩] ∧
      ∃ (entry : TrailingField) (inner after : Draft),
        setting.entries ⟨"marks", ⟨5⟩, .dummy⟩ = [entry] ∧
        (layOutNode setting (template setting 1) ⟨4⟩ .empty .empty).1 = .ok inner ∧
        (layOutArray .bits64 .dummy (layOutNode setting (template setting 1)) ⟨4⟩ 2 .empty
          .empty).1 = .ok after ∧
        entry.Tells (after.packs.toList.drop inner.packs.size) := by
  intro setting
  obtain ⟨layout, laid, warned⟩ : ∃ layout, tracks.layOut "Track" { maxSearchBytes := 3 } =
    .ok layout ∧ layout.warnings.size = 1 := ⟨_, by cbv, rfl⟩
  obtain ⟨after, done⟩ : ∃ after, (layOutArray .bits64 .dummy (layOutNode setting
    (template setting 1)) ⟨4⟩ 2 .empty .empty).1 = .ok after := ⟨_, by cbv⟩
  have declared : tracks.declaration? "Track" = some ⟨"Track", .struct [⟨"id", ⟨0⟩, .dummy⟩,
    ⟨"marks", ⟨5⟩, .dummy⟩, ⟨"note", ⟨6⟩, .dummy⟩], .dummy⟩ := rfl
  obtain ⟨_, ⟨layout', laid', _, same, _, _, _, _, trailing, warnings⟩, elements⟩ :=
    layOut_drops declared (.keep (.drop rfl (.keep .nil))) laid
  obtain ⟨entry, left, tells⟩ := elements ⟨"marks", ⟨5⟩, .dummy⟩ (by simp) ⟨4⟩ .dummy rfl
  have idle : Engine.Certified ⟨setting, .empty⟩ := ⟨Cache.certified_empty setting, rfl⟩
  obtain ⟨inner, inside, told⟩ := tells 1 .empty .empty 2 .dummy after (idle.admits ⟨4⟩)
    (Nat.zero_le _) done
  refine ⟨layout, layout', laid, laid', same, warned, warnings.trans ?_, trailing.trans ?_,
    entry, inner, after, left, inside, done, told⟩
  · cbv
  · cbv

end Roots

end PackedLayout
