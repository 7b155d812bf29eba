import PackedLayout.Proofs.Anew
import PackedLayout.Proofs.ExactRuns
import PackedLayout.Proofs.Framing
import PackedLayout.Proofs.Strictness

/-!
# Runs that are echoed

What one engine lays out well, another one lays out just so, as long as what comes of it is clean:
its bytes can be counted, and its warnings are mild. The other engine makes all structs anew, so
its cache does not matter.

- `Echoes`: such runs, with rules for the ways in which runs are put together;
- `Draft.Clean`: a clean draft, and `Settles`: a draft that something was put into was clean before;
- `echoes_layOutForm`: one level of laying out a type, from the types inside of it;
- `echoes_layOutStruct`: a struct, from its fields;
- `echoes_freshTemplate`: a struct with all that it refers to.
-/

namespace PackedLayout

/-! ## Runs and their echoes -/

/-- Where one run gives something clean, the other one gives the same with any cache. -/
def Echoes {α : Type} (schema : Schema) (w : Width) (clean : α → Prop) (act act' : EngineM α) :
    Prop :=
  ∀ cache, cache.Sound schema w → ∀ a, (act cache).1 = .ok a → clean a →
    ∀ cache', (act' cache').1 = .ok a

namespace Echoes

variable {α β : Type} {schema : Schema} {w : Width} {clean : α → Prop} {clean' : β → Prop}
  {act act' : EngineM α}

theorem throw (e : LayoutError) : Echoes schema w clean (throw e) act' :=
  fun _ _ _ failed => absurd failed nofun

theorem lift {run run' : Except LayoutError α}
    (h : ∀ a, run = .ok a → clean a → run' = .ok a) :
    Echoes schema w clean (liftM run) (liftM run') :=
  fun _ _ a done good _ => h a done good

theorem same (run : Except LayoutError α) : Echoes schema w clean (liftM run) (liftM run) :=
  lift fun _ done _ => done

theorem pure (a : α) : Echoes schema w clean (Pure.pure a) (Pure.pure a) :=
  fun _ _ _ done _ _ => done

/-- What comes first must have been clean if what comes of it is. -/
theorem bind {value : α → Prop} {next next' : α → EngineM β} (h : Echoes schema w clean act act')
    (forward : Ends schema w value act)
    (back : ∀ a, value a → Ends schema w (fun b => clean' b → clean a) (next a))
    (step : ∀ a, value a → Echoes schema w clean' (next a) (next' a)) :
    Echoes schema w clean' (act >>= next) (act' >>= next') := by
  intro cache sound b done good cache'
  obtain ⟨a, first, second⟩ := run_bind_eq_ok.mp done
  obtain ⟨sound', ends⟩ := forward cache sound
  have holds := ends.of_ok first
  have before := (back a holds _ sound').2.of_ok second good
  refine run_bind_eq_ok.mpr ⟨a, h cache sound a first before cache', ?_⟩
  exact step a holds _ sound' b second good _

/-- A step that is the same in both runs comes first. -/
theorem after {run : Except LayoutError α} {next next' : α → EngineM β}
    (step : ∀ a, run = .ok a → Echoes schema w clean' (next a) (next' a)) :
    Echoes schema w clean' (liftM run >>= next) (liftM run >>= next') := by
  intro cache sound b done good cache'
  obtain ⟨a, first, second⟩ := run_bind_eq_ok.mp done
  exact run_bind_eq_ok.mpr ⟨a, first, step a first cache sound b second good cache'⟩

theorem foldlM {step step' : β → α → EngineM β} (holds : List α → β → Prop)
    (forward : ∀ x rest b, holds (x :: rest) b →
      Ends schema w (fun next => holds rest next ∧ (clean' next → clean' b)) (step b x))
    (each : ∀ x rest b, holds (x :: rest) b → Echoes schema w clean' (step b x) (step' b x))
    {xs : List α} {b : β} (start : holds xs b) :
    Echoes schema w clean' (xs.foldlM step b) (xs.foldlM step' b) := by
  induction xs generalizing b with
  | nil => exact pure b
  | cons x rest ih =>
    rw [List.foldlM_cons, List.foldlM_cons]
    refine (each x rest b start).bind (forward x rest b start) (fun next ⟨still, _⟩ => ?_)
      fun next ⟨still, _⟩ => ih still
    refine (Keeps.foldlM (fun rest now => holds rest now ∧ (clean' now → clean' next))
      (fun y rest now ⟨here, back⟩ => ?_) ⟨still, id⟩).mono fun _ h => h.2
    exact (forward y rest now here).mono fun _ ⟨there, back'⟩ => ⟨there, back ∘ back'⟩

end Echoes

/-! ## Clean drafts -/

namespace Draft

/-- The bytes of a body can be counted, and there are none but mild warnings. -/
structure Clean (w : Width) (mild : Warning → Prop) (draft : Draft) : Prop where
  mild : ∀ warning ∈ draft.warnings, mild warning
  sized : w.Fits (Container.body draft.container.zones).bytes

end Draft

/-- All warnings of a template are mild. -/
def Template.Mild (mild : Warning → Prop) (t : Template) : Prop :=
  ∀ warning ∈ t.warnings, mild warning

section

variable {schema : Schema} {w : Width} {mild : Warning → Prop} {layOut layOut' : TypeLayout}
  {span : Span} {draft inner after : Draft} {isArm : Bool}

/-- Zones of whole units have a footprint just if their bytes can be counted. -/
theorem exists_footprint?_iff {zones : PerClass Zone} (whole : ∀ a, a.bytes ∣ (zones.get a).size) :
    (∃ counts, footprint? w zones = some counts) ↔ w.Fits (Container.body zones).bytes := by
  constructor
  · rintro ⟨counts, counted⟩
    obtain ⟨exact_, bytes⟩ := footprint?_spec whole counted
    have same : (Container.body zones).bytes = counts.totalBytes .unbounded := by
      rw [Container.bytes, PerClass.toList_eq_map_get, List.map_map]
      exact congrArg exactSum (List.map_congr_left fun a _ => (bytes a).symm)
    rw [same]
    exact exact_
  · intro fits
    cases w with
    | unbounded => exact exists_footprint? zones
    | bits64 =>
      obtain ⟨counts, _, here | ⟨_, large⟩⟩ := footprint?_inWords whole
      · exact ⟨counts, here⟩
      · exact absurd (Width.fits_bits64.mp fits) (Nat.not_lt.mpr large)

namespace Draft

/-- A draft in an arm is clean if its warnings are mild. -/
theorem clean_of_isArm (arm : draft.container.isArm = true)
    (none : ∀ warning ∈ draft.warnings, mild warning) : draft.Clean w mild where
  mild := none
  sized := by
    cases container : draft.container with
    | arm items => exact Width.fits_zero w
    | body zones =>
      rw [container] at arm
      contradiction

theorem Grows.isArm_eq {parts : List Part} (grown : Grows w draft after parts) :
    after.container.isArm = draft.container.isArm := by
  obtain ⟨_, put, _⟩ := grown.items
  exact Container.isArm_putAll? put

/-- What was put into a draft that is clean now was put into one that was clean. -/
theorem Grows.clean {parts : List Part} (grown : Grows w draft after parts)
    (kept : draft.reported <+: after.reported) (clean : after.Clean w mild) :
    draft.Clean w mild where
  mild := fun warning listed => clean.mild warning
    (Array.mem_toList_iff.mp (kept.subset (Array.mem_toList_iff.mpr listed)))
  sized := by
    obtain ⟨items, put, _⟩ := grown.items
    cases container : draft.container with
    | arm items => exact Width.fits_zero w
    | body zones =>
      rw [container] at put
      have more := Container.bytes_putAll put
      have sized := clean.sized
      rw [← putAll_body put] at sized
      exact sized.mono (by rw [more]; exact Nat.le_add_right _ _)

end Draft

/-- A draft is clean before a type is put into it if it is so behind. -/
def Settles (schema : Schema) (w : Width) (mild : Warning → Prop) (layOut : TypeLayout) : Prop :=
  ∀ id draft, draft.slots ≤ maxSlots → Ends schema w (fun after => after.slots ≤ maxSlots ∧
    after.container.isArm = draft.container.isArm ∧
      (after.Clean w mild → draft.Clean w mild)) (layOut id draft)

theorem settles (lays : Lays schema w layOut) (accumulates : Accumulates schema w layOut) :
    Settles schema w mild layOut := by
  intro id draft room
  refine ((lays id draft room).anyway.ensuring (accumulates id draft) fun _ sound => sound).mono ?_
  rintro after ⟨⟨shape, _, grown⟩, kept⟩
  exact ⟨grown.slots_le, grown.isArm_eq, grown.clean kept⟩

/-! ## Types -/

/-- A type that is put into a draft in an arm, or in a body, is put there in the other engine. -/
def EchoesType (schema : Schema) (w : Width) (mild : Warning → Prop) (isArm : Bool)
    (layOut layOut' : TypeLayout) (id : TypeId) : Prop :=
  ∀ draft, draft.slots ≤ maxSlots → draft.container.isArm = isArm →
    Echoes schema w (Draft.Clean w mild) (layOut id draft) (layOut' id draft)

theorem echoes_layOutFields (settles : Settles schema w mild layOut) {fields : List Field}
    (each : ∀ field ∈ fields, EchoesType schema w mild isArm layOut layOut' field.type)
    (room : draft.slots ≤ maxSlots) (kind : draft.container.isArm = isArm) :
    Echoes schema w (Draft.Clean w mild) (layOutFields layOut fields draft)
      (layOutFields layOut' fields draft) := by
  unfold layOutFields
  refine .foldlM (fun rest now => now.slots ≤ maxSlots ∧ now.container.isArm = isArm ∧
    ∀ field ∈ rest, field ∈ fields) (fun field rest now ⟨room, kind, listed⟩ => ?_)
    (fun field rest now ⟨room, kind, listed⟩ => ?_) ⟨room, kind, fun _ member => member⟩
  · refine (settles field.type now room).mono fun after ⟨room', kind', back⟩ =>
      ⟨⟨room', kind'.trans kind, fun other later => ?_⟩, back⟩
    exact listed other (List.mem_cons_of_mem _ later)
  · exact each field (listed field List.mem_cons_self) now room kind

/-- What was put into an empty body is clean if its bytes are counted. -/
theorem Draft.Grows.clean_of_footprint? {parts : List Part} {counts : UnitCounts}
    (grown : Grows w { draft with container := .emptyBody } after parts)
    (counted : footprint? w after.container.zones = some counts)
    (none : ∀ warning ∈ after.warnings, mild warning) : after.Clean w mild where
  mild := none
  sized := by
    obtain ⟨items, into, realizes⟩ := grown.items
    exact (exists_footprint?_iff fun a => ((realizes.body into).2 a).1).mp ⟨counts, counted⟩

/-- The element of an array that is put in has been clean. -/
theorem Draft.Grows.clean_of_putArray {parts : List Part} {container : Container} {length : Nat}
    (grown : Grows w { draft with container := .emptyBody } inner parts)
    (put : Draft.putArray w span length inner.container.zones
      { inner with container } = .ok after) (clean : after.Clean w mild) :
    inner.Clean w mild := by
  have same := ((Draft.keepsReports_putArray length _).of_ok put).2
  unfold putArray at put
  cases counted : footprint? w inner.container.zones with
  | none =>
    rw [counted] at put
    contradiction
  | some counts =>
    exact grown.clean_of_footprint? counted fun warning listed => clean.mild warning (same ▸ listed)

theorem echoes_layOutArray (lays : Lays schema w layOut) {element : TypeId} (length : Nat)
    (inside : EchoesType schema w mild false layOut layOut' element)
    (room : draft.slots ≤ maxSlots) :
    Echoes schema w (Draft.Clean w mild) (layOutArray w span layOut element length draft)
      (layOutArray w span layOut' element length draft) := by
  unfold layOutArray
  dsimp only [Draft.exchange]
  refine (inside { draft with container := .emptyBody } room rfl).bind
    (lays element { draft with container := .emptyBody } room).anyway ?_ fun inner _ => .same _
  rintro inner ⟨shape, _, grown⟩
  exact Keeps.lift ((ensures_eq_ok _).mono fun after put => grown.clean_of_putArray put)

/-- Arms that are collected are collected in the other engine. -/
theorem echoes_collectArms (lays : Lays schema w layOut)
    (accumulates : Accumulates schema w layOut) (index : Nat) (collected : List Arm)
    {ids : List TypeId}
    (each : ∀ id ∈ ids, EchoesType schema w mild true layOut layOut' id)
    (room : draft.slots ≤ maxSlots) (kind : draft.container.isArm = true) :
    Echoes schema w (fun r => ∀ warning ∈ r.2.warnings, mild warning)
      (collectArms w span layOut index collected ids draft)
      (collectArms w span layOut' index collected ids draft) := by
  induction ids generalizing index collected draft with
  | nil => exact .pure _
  | cons id rest ih =>
    unfold collectArms
    refine (each id List.mem_cons_self draft room kind).bind (lays id draft room).anyway ?_ ?_
    · rintro next ⟨shape, _, grown⟩
      dsimp only [Draft.exchange]
      split
      · refine (accumulates_collectArms accumulates _ _ _ _).mono fun r kept none => ?_
        refine Draft.clean_of_isArm (grown.isArm_eq.trans kind) fun warning listed => ?_
        exact none warning (Array.mem_toList_iff.mp (kept.subset (Array.mem_toList_iff.mpr listed)))
      · exact Keeps.throw trivial
    · rintro next ⟨shape, _, grown⟩
      dsimp only [Draft.exchange]
      split
      · exact ih _ _ (fun other later => each other (List.mem_cons_of_mem _ later)) grown.slots_le
          rfl
      · exact .throw _

theorem Draft.mem_warned {warnings : Array Warning} {degradations : List Degradation}
    {warning : Warning} :
    warning ∈ warnings ++ degradations.map (fun d => (⟨d, span⟩ : Warning)) ↔
      warning ∈ warnings ∨ ∃ d ∈ degradations, (⟨d, span⟩ : Warning) = warning := by
  simp [← Array.mem_toList_iff]

/-- A variant that is put in warns of its degradations. -/
theorem Draft.Clean.of_putVariant {options : Options} {tag arms : Nat} {r : Resolution}
    (clean : after.Clean w mild) (put : draft.putVariant w options span tag arms r = .ok after) :
    (∀ warning ∈ draft.warnings, mild warning) ∧
      ∀ degradation ∈ r.degradations, mild ⟨degradation, span⟩ := by
  have warned := congrArg Draft.warnings (Draft.of_putVariant put).2.1
  have listed := clean.mild
  rw [warned] at listed
  exact ⟨fun warning earlier => listed warning (Draft.mem_warned.mpr (.inl earlier)),
    fun degradation reported => listed _ (Draft.mem_warned.mpr (.inr ⟨_, reported, rfl⟩))⟩

/-- A variant is put in by the other engine if its arms are resolved alike. -/
theorem echoes_layOutVariant {options options' : Options}
    (strict : options'.requirePerfect = options.requirePerfect)
    (lays : Lays schema w layOut) (accumulates : Accumulates schema w layOut) {ids : List TypeId}
    (each : ∀ id ∈ ids, EchoesType schema w mild true layOut layOut' id)
    (resolves : ∀ arms r, (∀ arm ∈ arms, arm.Collected w) →
      Resolution.ofArms w options.maxSearchBytes arms = .ok r →
        (∀ degradation ∈ r.degradations, mild ⟨degradation, span⟩) →
          Resolution.ofArms w options'.maxSearchBytes arms = .ok r) :
    Echoes schema w (Draft.Clean w mild) (layOutVariant w options span layOut ids draft)
      (layOutVariant w options' span layOut' ids draft) := by
  have puts (tag : Nat) (r : Resolution) (filled : Draft) :
      filled.putVariant w options' span tag ids.length r =
        filled.putVariant w options span tag ids.length r := by
    unfold Draft.putVariant
    rw [strict]
  unfold layOutVariant
  dsimp only [Draft.exchange]
  refine .after fun tagged tag => ?_
  have room := ((ensures_putTag _).of_ok tag).slots_le
  have start : Collects w { tagged with container := .arm [] }
      { tagged with container := .arm [] } [] (List.reverse []) := collects_nil room rfl
  have collects : Echoes schema w (fun r => ∀ warning ∈ r.2.warnings, mild warning)
      (collectArms w span layOut 0 [] ids { tagged with container := .arm [] })
      (collectArms w span layOut' 0 [] ids { tagged with container := .arm [] }) :=
    echoes_collectArms lays accumulates 0 [] each room rfl
  refine collects.bind (keeps_collectArms lays ids start).anyway ?_ ?_
  · rintro ⟨arms, filled⟩ _
    exact (keeps_anything _).bind fun r _ => Keeps.lift ((ensures_eq_ok _).mono
      fun after put clean => (clean.of_putVariant put).1)
  · rintro ⟨arms, filled⟩ ⟨shapes, _, collects⟩ cache sound after done clean cache'
    obtain ⟨r, resolved, put⟩ := run_bind_eq_ok.mp done
    have resolution : Resolution.ofArms w options.maxSearchBytes arms = .ok r := by
      cases ran : Resolution.ofArms w options.maxSearchBytes arms with
      | error e =>
        rw [ran] at resolved
        exact absurd resolved nofun
      | ok r' =>
        rw [ran] at resolved
        exact congrArg _ (Except.ok.inj resolved)
    refine run_bind_eq_ok.mpr ⟨r, ?_, ?_⟩
    · rw [resolves arms r collects.collected resolution (clean.of_putVariant put).2]
      rfl
    · rw [puts]
      exact put

end

/-! ## Two settings -/

section

variable {setting setting' : Setting} {mild : Warning → Prop} {struct struct' : StructLayout}
  {span : Span} {draft : Draft} {isArm : Bool}

/-- Structs with mild warnings are found by the other engine. -/
def EchoesStructs (schema : Schema) (w : Width) (mild : Warning → Prop)
    (struct struct' : StructLayout) : Prop :=
  ∀ name span, Echoes schema w (Template.Mild mild) (struct name span) (struct' name span)

/-- The container that the types inside of a type are put into. -/
def TypeForm.inArm (isArm : Bool) : TypeForm → Bool
  | .variant .. => true
  | .record _ => isArm
  | _ => false

/-- Two settings that declare the same structs and reject the same storage. -/
structure SameRules (setting setting' : Setting) : Prop where
  declarations : setting'.schema.declarations = setting.schema.declarations
  strict : setting'.options.requirePerfect = setting.options.requirePerfect
  width : setting'.width = setting.width

theorem SameRules.declaration? (h : SameRules setting setting') (name : String) :
    setting'.schema.declaration? name = setting.schema.declaration? name :=
  congrArg (List.find? _) h.declarations

theorem echoes_layOutNamed (rules : SameRules setting setting')
    (finds : Finds setting.schema setting.width struct)
    (structs : EchoesStructs setting.schema setting.width mild struct struct')
    (name : String) :
    Echoes setting.schema setting.width (Draft.Clean setting.width mild)
      (layOutNamed setting span struct name draft)
      (layOutNamed setting' span struct' name draft) := by
  obtain ⟨run, step⟩ := setting.schema.exists_nameStep name
  rw [step.layOutNamed_eq rfl, step.layOutNamed_eq (rules.declaration? name)]
  cases step with
  | unknown | badEnum => exact .throw _
  | enum =>
    dsimp only
    rw [rules.width]
    exact .same _
  | struct =>
    dsimp only
    rw [rules.width]
    refine (structs name span).bind (finds name span).anyway (fun t _ => ?_) fun t _ => ?_
    · split
      · refine Keeps.lift ((ensures_eq_ok _).mono fun after put clean warning listed => ?_)
        rw [(Draft.of_embed put).1] at clean
        exact clean.mild warning (Array.mem_append_right _ listed)
      · exact Keeps.throw trivial
    · split
      · exact .same _
      · exact .throw _

/-- One level of laying out a type is echoed if it is for the types inside. -/
theorem echoes_layOutForm {layOut layOut' : TypeLayout} {id : TypeId}
    (rules : SameRules setting setting')
    (node : setting'.schema.type? id = setting.schema.type? id)
    (finds : Finds setting.schema setting.width struct)
    (structs : EchoesStructs setting.schema setting.width mild struct struct')
    (resolves : ∀ span arms r, (∀ arm ∈ arms, arm.Collected setting.width) →
      Resolution.ofArms setting.width setting.options.maxSearchBytes arms = .ok r →
        (∀ degradation ∈ r.degradations, mild ⟨degradation, span⟩) →
          Resolution.ofArms setting.width setting'.options.maxSearchBytes arms = .ok r)
    (lays : Lays setting.schema setting.width layOut)
    (accumulates : Accumulates setting.schema setting.width layOut)
    (inside : ∀ form span, setting.schema.type? id = some ⟨form, span⟩ → ∀ part ∈ form.inner,
      EchoesType setting.schema setting.width mild (form.inArm isArm) layOut layOut' part) :
    EchoesType setting.schema setting.width mild isArm (layOutForm setting struct layOut)
      (layOutForm setting' struct' layOut') id := by
  intro draft room kind
  obtain ⟨run, step⟩ := setting.schema.exists_typeStep id
  rw [step.layOutForm_eq rfl, step.layOutForm_eq node]
  cases step with
  | refused => exact .throw _
  | primitive | string =>
    dsimp only
    rw [rules.width]
    exact .same _
  | array known =>
    dsimp only
    rw [rules.width]
    exact echoes_layOutArray lays _ (inside _ _ known _ List.mem_cons_self) room
  | @variant arms span known =>
    dsimp only
    rw [rules.width]
    exact echoes_layOutVariant rules.strict lays accumulates (inside _ span known) (resolves span)
  | record known =>
    refine echoes_layOutFields (settles lays accumulates) (fun field member => ?_) room kind
    exact inside _ _ known field.type (List.mem_map_of_mem member)
  | named => exact echoes_layOutNamed rules finds structs _

/-! ## Structs -/

/-- A type of a field is of variable length in both schemas or in none. -/
structure SameTrailing (schema schema' : Schema) (id : TypeId) : Prop where
  string : ∀ span, schema'.type? id = some ⟨.string, span⟩ ↔ schema.type? id = some ⟨.string, span⟩
  dynamic : ∀ element span, schema'.type? id = some ⟨.array element .dynamic, span⟩ ↔
    schema.type? id = some ⟨.array element .dynamic, span⟩

theorem SameTrailing.fieldStep {schema schema' : Schema} {field : Field}
    {run : Setting → StructLayout → Draft × List TrailingField →
      EngineM (Draft × List TrailingField)}
    (same : SameTrailing schema schema' field.type) (step : schema.FieldStep field run) :
    schema'.FieldStep field run := by
  cases step with
  | string node => exact .string ((same.string _).mpr node)
  | dynamic node => exact .dynamic ((same.dynamic _ _).mpr node)
  | fixed notString notDynamic =>
    exact .fixed (fun span node => notString span ((same.string span).mp node))
      fun element span node => notDynamic element span ((same.dynamic element span).mp node)

/-- What is laid out for a field of a struct is put into bodies by the other engine. -/
structure EchoesField (schema schema' : Schema) (w : Width) (mild : Warning → Prop)
    (layOut layOut' : TypeLayout) (field : Field) : Prop where
  trailing : SameTrailing schema schema' field.type
  laidOut : EchoesType schema w mild false layOut layOut' (schema.laidOut field)

section Structs

variable (finds : Finds setting.schema setting.width struct) (made : FindsMade setting struct)

include finds

theorem echoes_elementFootprint (rules : SameRules setting setting') {element : TypeId}
    (inside : EchoesType setting.schema setting.width mild false (layOutNode setting struct)
      (layOutNode setting' struct') element) :
    Echoes setting.schema setting.width (fun r => ∀ warning ∈ r.2, mild warning)
      (elementFootprint setting struct element)
      (elementFootprint setting' struct' element) := by
  have lays := keeps_layOutNode finds element .empty (Nat.zero_le _)
  unfold elementFootprint
  rw [rules.width]
  refine (inside .empty (Nat.zero_le _) rfl).bind lays.anyway ?_ fun inner _ => ?_
  · rintro inner ⟨shape, _, grown⟩
    split
    · rename_i counts counted
      exact Keeps.pure fun none =>
        @Draft.Grows.clean_of_footprint? _ _ .empty _ _ _ grown counted none
    · exact Keeps.throw trivial
  · split
    · exact .pure _
    · exact .throw _

include made

/-- A draft is clean before a field is laid out if it is so behind. -/
theorem settles_layOutField (sofar : Draft × List TrailingField) (field : Field)
    (room : sofar.1.slots ≤ maxSlots) :
    Ends setting.schema setting.width
      (fun next => next.1.Clean setting.width mild → sofar.1.Clean setting.width mild)
      (layOutField setting struct sofar field) := by
  have accumulates := (ends_layOutType_puts finds made
    (setting.maxDepth)).accumulates
  obtain ⟨run, step⟩ := setting.schema.exists_fieldStep field
  rw [step.layOutField_eq rfl]
  cases step with
  | string => exact Keeps.pure id
  | dynamic =>
    refine (keeps_elementFootprint finds _).anyway.bind fun ⟨footprint, warnings⟩ _ => ?_
    dsimp only
    split
    · exact Keeps.throw trivial
    · exact Keeps.pure fun clean => ⟨fun warning listed =>
        clean.mild warning (Array.mem_append_left _ listed), clean.sized⟩
  | fixed =>
    exact (settles (keeps_layOutNode finds) accumulates field.type sofar.1 room).bind
      fun after ⟨_, _, back⟩ => Keeps.pure back

omit made in
theorem echoes_layOutField (rules : SameRules setting setting')
    {sofar : Draft × List TrailingField} {field : Field}
    (inside : EchoesField setting.schema setting'.schema setting.width mild
      (layOutNode setting struct) (layOutNode setting' struct') field)
    (room : sofar.1.slots ≤ maxSlots) (body : sofar.1.container.isArm = false) :
    Echoes setting.schema setting.width (fun next => next.1.Clean setting.width mild)
      (layOutField setting struct sofar field)
      (layOutField setting' struct' sofar field) := by
  obtain ⟨trailing, laidOut⟩ := inside
  obtain ⟨run, step⟩ := setting.schema.exists_fieldStep field
  rw [step.layOutField_eq rfl, (trailing.fieldStep step).layOutField_eq rfl]
  cases step with
  | string => exact .pure _
  | @dynamic element span node =>
    dsimp only
    rw [Schema.laidOut_eq_element node] at laidOut
    rw [rules.width]
    refine (echoes_elementFootprint finds rules laidOut).bind
      (keeps_elementFootprint finds _).anyway (fun ⟨footprint, warnings⟩ _ => ?_)
      fun ⟨footprint, warnings⟩ _ => ?_
    · dsimp only
      split
      · exact Keeps.throw trivial
      · exact Keeps.pure fun clean warning listed =>
          clean.mild warning (Array.mem_append_right _ listed)
    · dsimp only
      split
      · exact .throw _
      · exact .pure _
  | fixed _ notDynamic =>
    rw [Schema.laidOut_eq_type notDynamic] at laidOut
    exact (laidOut sofar.1 room body).bind
      (keeps_layOutNode finds field.type sofar.1 room).anyway
        (fun after _ => Keeps.pure id) fun after _ => .pure _

/-- A struct is echoed if what is laid out for its fields is. -/
theorem echoes_layOutStruct (rules : SameRules setting setting') {name : String}
    {fields : List Field} (declared : setting.schema.structFields? name = some fields)
    (each : ∀ field ∈ fields, EchoesField setting.schema setting'.schema setting.width mild
      (layOutNode setting struct) (layOutNode setting' struct') field) :
    Echoes setting.schema setting.width (Template.Mild mild)
      (layOutStruct setting struct name fields span)
      (layOutStruct setting' struct' name fields span) := by
  have start : FieldsSofar setting.schema setting.width [] (.empty, []) :=
    ⟨⟨[], .nil, Draft.grows_nil (Nat.zero_le _)⟩, rfl⟩
  have forward (field : Field) (rest : List Field) (sofar : Draft × List TrailingField)
      (h : ∃ done, done ++ field :: rest = fields ∧
        FieldsSofar setting.schema setting.width done sofar) :
      Ends setting.schema setting.width (fun next => (∃ done, done ++ rest = fields ∧
        FieldsSofar setting.schema setting.width done next) ∧
          (next.1.Clean setting.width mild → sofar.1.Clean setting.width mild))
        (layOutField setting struct sofar field) := by
    obtain ⟨done, split, h⟩ := h
    obtain ⟨⟨_, _, grown⟩, _⟩ := id h
    have settled : Ends setting.schema setting.width (fun next => next.1.Clean setting.width mild →
        sofar.1.Clean setting.width mild) (layOutField setting struct sofar field) :=
      settles_layOutField finds made sofar field grown.slots_le
    refine ((keeps_layOutField finds field h).anyway.ensuring settled fun _ sound => sound).mono ?_
    exact fun next ⟨further, back⟩ => ⟨⟨done ++ [field], by simp [← split], further⟩, back⟩
  have fold : Echoes setting.schema setting.width
      (fun next : Draft × List TrailingField => next.1.Clean setting.width mild)
      (fields.foldlM (layOutField setting struct) (.empty, []))
      (fields.foldlM (layOutField setting' struct') (.empty, [])) := by
    refine .foldlM (fun rest sofar => ∃ done, done ++ rest = fields ∧
      FieldsSofar setting.schema setting.width done sofar) forward ?_ ⟨[], rfl, start⟩
    rintro field rest sofar ⟨done, rfl, ⟨_, _, grown⟩, _⟩
    exact echoes_layOutField finds rules (each field (by simp)) grown.slots_le grown.isArm_eq
  unfold layOutStruct
  rw [rules.width]
  refine fold.bind (Keeps.foldlM _ (fun field rest sofar h => (forward field rest sofar h).mono
    fun _ => And.left) ⟨[], rfl, start⟩) ?_ ?_
  · rintro ⟨draft, trailing⟩ ⟨done, _, ⟨_, _, grown⟩, _⟩
    dsimp only
    split
    · exact Keeps.throw trivial
    · rename_i counts counted
      exact Keeps.pure fun none =>
        @Draft.Grows.clean_of_footprint? _ _ .empty _ _ _ grown counted none
  · rintro ⟨draft, trailing⟩ _
    dsimp only
    split
    · exact .throw _
    · exact .pure _

end Structs

/-- A struct is echoed with all that it refers to, if every struct is whose own structs are. -/
theorem echoes_freshTemplate (rules : SameRules setting setting')
    (each : ∀ depth, EchoesStructs setting.schema setting.width mild (freshTemplate setting depth)
        (anew setting') → ∀ name fields span, setting.schema.structFields? name = some fields →
      Echoes setting.schema setting.width (Template.Mild mild)
        (layOutStruct setting (freshTemplate setting depth) name fields span)
        (layOutStruct setting' (anew setting') name fields span)) (depth : Nat) :
    EchoesStructs setting.schema setting.width mild (freshTemplate setting depth)
      (anew setting') := by
  induction depth with
  | zero =>
    intro name span cache sound t made
    obtain ⟨e, failed⟩ | ⟨pos, _⟩ := freshTemplate_cases setting 0 name span cache
    · rw [failed] at made
      contradiction
    · contradiction
  | succ depth ih =>
    intro name span cache sound t made mild cache'
    obtain ⟨e, failed⟩ | ⟨_, fields, declared, known, new, body⟩ :=
      freshTemplate_cases setting (depth + 1) name span cache
    · rw [failed] at made
      contradiction
    rw [freshTemplate_of_body (body span cache new)] at made
    have known' : setting'.schema.structFields? name = some fields := by
      unfold Schema.structFields? at known ⊢
      rwa [rules.declaration? name]
    have body' (span : Span) (c : Cache) (new : name ∉ c.underway) :
        structBody setting' name span c = (.ok (fields, declared), c) := by
      refine Eq.trans ?_ (body span c new)
      unfold structBody
      rw [rules.declaration? name]
    have laid := each depth ih name fields declared known (cache.enter name) sound t made mild
      .empty
    exact anew_eq_ok.mpr ((layOutStruct_anew known' body').mp laid)

/-- What is laid out for a root is laid out for it in the other schema. -/
theorem layOut_of_echoes (rules : SameRules setting setting') {root : String} {layout : Layout}
    (structs : EchoesStructs setting.schema setting.width mild
      (freshTemplate setting setting.schema.declarations.length) (anew setting'))
    (laid : (Engine.layOut ⟨setting, .empty⟩ root).1 = .ok layout)
    (clean : ∀ warning ∈ layout.warnings, mild warning) :
    (Engine.layOut ⟨setting', .empty⟩ root).1 = .ok layout := by
  rw [Engine.layOut_fresh] at laid ⊢
  dsimp only at laid ⊢
  obtain ⟨t, made, done⟩ := bind_eq_ok.mp laid
  rw [Template.warnings_of_toLayout done] at clean
  have found := structs root _ ⟨[], []⟩ nofun t made clean .empty
  obtain ⟨fresh, rfl⟩ := anew_eq_ok.mp found
  rw [rules.declaration?, rules.width]
  exact bind_eq_ok.mpr ⟨t, fresh _, done⟩

end

end PackedLayout
