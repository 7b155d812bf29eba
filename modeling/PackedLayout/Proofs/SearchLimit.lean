import PackedLayout.Proofs.Echoing
import PackedLayout.Proofs.ResolvedVariants
import PackedLayout.Proofs.StorageSize

/-!
# The limit of the search

No boundaries are searched for where the largest arm is above the limit, and such a variant has a
warning. Where there is no such warning the limit does not matter: a layout is the same for every
limit above.

- `Arm.fill_limit`: an arm below the limit fills a zone as it does with any limit above;
- `Resolution.ofArms_limit`: a variant for which boundaries were searched is resolved alike;
- `layOut_limit`: so a root struct is laid out alike, if no search was skipped;
- `Puts.reported`, `skipped_layOut`: a search is skipped only above the limit, and then the variant
  is not perfect.
-/

namespace PackedLayout

variable {w : Width} {limit limit' capacity start boundary total : Nat} {zone : Alignment}
  {arms : List Arm}

/-! ## Filling -/

namespace Arm

variable {arm : Arm}

/-- The limit does not matter for an arm whose fields are below it: it never wants more than the
smaller fields it has. -/
theorem taken_limit (small : exactSize arm.pending ≤ limit) (le : limit ≤ limit') :
    arm.taken limit' zone capacity = arm.taken limit zone capacity := by
  have split := arm.exactSize_pending zone
  have wanted : min (capacity - exactSize (arm.mandatory zone)) (exactSize (arm.optional zone)) ≤
      limit := by omega
  unfold taken fillMask
  simp only [if_pos wanted, if_pos (Nat.le_trans wanted le)]

theorem fill_limit (small : exactSize arm.pending ≤ limit) (le : limit ≤ limit') :
    arm.fill w limit' zone capacity = arm.fill w limit zone capacity := by
  rw [fill_eq, fill_eq, taken_limit small le]

/-- What stays of an arm is no larger than the arm. -/
theorem exactSize_of_fill {r : Arm × Stack} (filled : arm.fill w limit zone capacity = .ok r) :
    exactSize r.1.pending ≤ exactSize arm.pending := by
  rw [eq_of_fill filled]
  exact exactSum_le_of_sublist ((arm.left_sublist zone _).map _)

end Arm

/-- All arms have at most `limit` bytes left. -/
def ArmsWithin (limit : Nat) (arms : List Arm) : Prop :=
  ∀ arm ∈ arms, exactSize arm.pending ≤ limit

namespace ArmsWithin

theorem fill_limit (small : ArmsWithin limit arms) (le : limit ≤ limit') :
    ZoneStep.fill w limit' zone start boundary arms =
      ZoneStep.fill w limit zone start boundary arms := by
  have each : arms.mapM (Arm.fill w limit' zone (boundary - start)) =
      arms.mapM (Arm.fill w limit zone (boundary - start)) := by
    induction arms with
    | nil => rfl
    | cons arm rest ih =>
      rw [List.mapM_cons, List.mapM_cons, Arm.fill_limit (small arm List.mem_cons_self) le,
        ih fun other later => small other (List.mem_cons_of_mem _ later)]
  unfold ZoneStep.fill
  dsimp only
  rw [each]

theorem of_fill {step : ZoneStep} (small : ArmsWithin limit arms)
    (filled : ZoneStep.fill w limit zone start boundary arms = .ok step) :
    ArmsWithin limit step.after := by
  obtain ⟨results, ran, filled⟩ := bind_eq_ok.mp filled
  obtain ⟨size, _, filled⟩ := bind_eq_ok.mp filled
  obtain ⟨stop, _, filled⟩ := bind_eq_ok.mp filled
  cases filled
  intro after listed
  obtain ⟨r, member, rfl⟩ := List.mem_map.mp listed
  obtain ⟨arm, there, own⟩ := exists_left_of_mem (mapM_eq_ok.mp ran) member
  exact Nat.le_trans (Arm.exactSize_of_fill own) (small arm there)

end ArmsWithin

/-! ## Planning and placing -/

namespace ZonePlan

variable {p next : Progress} {plan : ZonePlan}

theorem Progress.close_limit (small : ArmsWithin limit p.arms) (le : limit ≤ limit') :
    p.close w limit' zone boundary = p.close w limit zone boundary := by
  unfold Progress.close
  rw [small.fill_limit le]

theorem Progress.within_of_close (small : ArmsWithin limit p.arms)
    (closed : p.close w limit zone boundary = .ok next) : ArmsWithin limit next.arms := by
  obtain ⟨step, filled, rfl⟩ := close_eq_ok.mp closed
  exact small.of_fill filled

/-- A search below the limit does not depend on it. -/
theorem search_limit (zones : List Alignment) (small : ArmsWithin limit p.arms)
    (le : limit ≤ limit') : search w limit' total zones p = search w limit total zones p := by
  induction zones generalizing p with
  | nil => rfl
  | cons zone rest ih =>
    have closes (p : Progress) (small : ArmsWithin limit p.arms) (boundary : Nat) :
        (p.close w limit' zone boundary >>= search w limit' total rest) =
          (p.close w limit zone boundary >>= search w limit total rest) := by
      rw [Progress.close_limit small le]
      cases closed : p.close w limit zone boundary with
      | error e => rfl
      | ok next => exact ih (Progress.within_of_close small closed)
    unfold search
    simp only [closes p small]
    split
    · refine bind_congr fun least => ?_
      split
      · rfl
      · exact closes { p with plan := p.plan.degrade zone least } small least
    · rfl

theorem ofArms_limit (small : ArmsWithin limit arms)
    (searched : ∀ arm ∈ arms, arm.required ≤ limit) (le : limit ≤ limit') :
    ofArms w limit' arms = ofArms w limit arms := by
  cases arms with
  | nil => rfl
  | cons largest rest =>
    have fits := searched largest List.mem_cons_self
    unfold ofArms
    simp only [decide_eq_false (Nat.not_lt.mpr fits),
      decide_eq_false (Nat.not_lt.mpr (Nat.le_trans fits le))]
    exact search_limit _ small le

/-- The search is skipped if the largest arm is above the limit. -/
theorem skipped_ofArms (planned : ofArms w limit arms = .ok plan) :
    plan.skipped = decide (limit < (arms.head?.map (·.required)).getD 0) := by
  cases arms with
  | nil =>
    cases planned
    exact (decide_eq_false (Nat.not_lt_zero limit)).symm
  | cons largest rest => exact (search_keeps planned).1

end ZonePlan

namespace Storage

variable {target : Boundaries}

theorem place_limit (small : ArmsWithin limit arms) (le : limit ≤ limit') :
    place w limit' target arms = place w limit target arms := by
  have run (zones : List Alignment) (s : Storage) (small : ArmsWithin limit s.arms) :
      zones.foldlM (placeZone w limit' target) s = zones.foldlM (placeZone w limit target) s := by
    induction zones generalizing s with
    | nil => rfl
    | cons zone rest ih =>
      rw [List.foldlM_cons, List.foldlM_cons]
      have same : s.placeZone w limit' target zone = s.placeZone w limit target zone := by
        unfold placeZone
        rw [small.fill_limit le]
      rw [same]
      cases placed : s.placeZone w limit target zone with
      | error e => rfl
      | ok after =>
        obtain ⟨_, _, filled, rfl⟩ := placeZone_eq_ok.mp placed
        exact ih _ (small.of_fill filled)
  unfold place
  rw [run _ { arms } small]

end Storage

namespace Resolution

variable {r : Resolution}

/-- The search for boundaries is skipped if the largest arm is above the limit, and only then. -/
theorem skipped_mem_degradations (resolved : ofArms w limit arms = .ok r) {n m : Nat} :
    .searchSkipped n m ∈ r.degradations ↔ (n = r.required ∧ m = limit) ∧ limit < r.required := by
  obtain ⟨plan, planned, resolved⟩ := bind_eq_ok.mp resolved
  obtain ⟨storage, stored, resolved⟩ := bind_eq_ok.mp resolved
  cases resolved
  have skipped := ZonePlan.skipped_ofArms planned
  dsimp only
  rw [ZonePlan.degradations, skipped, Storage.padding]
  generalize ((byRequirement arms).head?.map (·.required)).getD 0 = required
  by_cases above : limit < required <;> simp [above]

/-- A variant for which boundaries were searched is resolved alike with any limit above. -/
theorem ofArms_limit (collected : ∀ arm ∈ arms, arm.Collected w)
    (resolved : ofArms w limit arms = .ok r)
    (searched : ∀ n m, .searchSkipped n m ∉ r.degradations) (le : limit ≤ limit') :
    ofArms w limit' arms = .ok r := by
  have below : ¬limit < r.required := fun above =>
    searched _ _ ((skipped_mem_degradations resolved).mpr ⟨⟨rfl, rfl⟩, above⟩)
  have small : ∀ arm ∈ byRequirement arms, arm.required ≤ limit := by
    intro arm member
    have listed := (byRequirement_perm arms).mem_iff.mp member
    have le : arm.required ≤ (arms.map (·.required)).foldl max 0 :=
      ZoneStep.le_foldl_max_map listed
    rw [← (exists_place resolved).2.1] at le
    omega
  have within : ArmsWithin limit (byRequirement arms) := fun arm member =>
    (collected arm ((byRequirement_perm arms).mem_iff.mp member)).required_eq ▸ small arm member
  obtain ⟨plan, planned, resolved⟩ := bind_eq_ok.mp resolved
  obtain ⟨storage, stored, resolved⟩ := bind_eq_ok.mp resolved
  cases resolved
  have skipped := (ZonePlan.skipped_ofArms planned).trans (decide_eq_false below)
  refine bind_eq_ok.mpr ⟨plan, (ZonePlan.ofArms_limit within small le).trans planned, ?_⟩
  refine bind_eq_ok.mpr ⟨storage, (Storage.place_limit within le).trans stored, ?_⟩
  simp only [ZonePlan.degradations, skipped]
  rfl

end Resolution

/-! ## Types and structs -/

/-- The warning does not say that a search was skipped. -/
def Warning.Searched (warning : Warning) : Prop :=
  ∀ n m, warning.degradation ≠ .searchSkipped n m

/-- The setting with another limit. -/
def Setting.withLimit (setting : Setting) (limit : Nat) : Setting :=
  { setting with options := { setting.options with maxSearchBytes := limit } }

theorem Setting.sameRules_withLimit (setting : Setting) (limit : Nat) :
    SameRules setting (setting.withLimit limit) := ⟨rfl, rfl, rfl⟩

section

variable {setting : Setting} {struct struct' : StructLayout}
  (le : setting.options.maxSearchBytes ≤ limit) (finds : Finds setting.schema setting.width struct)
  (made : FindsMade setting struct)
  (structs : EchoesStructs setting.schema setting.width Warning.Searched struct struct')

include le finds made structs

/-- A type is laid out alike with any limit above, if no search was skipped. -/
theorem echoes_layOutType_limit (isArm : Bool) (depth : Nat) (id : TypeId) :
    EchoesType setting.schema setting.width Warning.Searched isArm
      (layOutType setting struct depth)
      (layOutType (setting.withLimit limit) struct' depth) id := by
  induction depth generalizing isArm id with
  | zero => exact fun draft _ _ => .throw _
  | succ depth ih =>
    rw [layOutType_succ, layOutType_succ]
    refine echoes_layOutForm (setting.sameRules_withLimit limit) rfl finds structs ?_
      (keeps_layOutType finds depth) (ends_layOutType_puts finds made depth).accumulates
      fun form span _ part _ => ih _ part
    intro span arms r collected resolved searched
    exact Resolution.ofArms_limit collected resolved
      (fun n m skipped => searched _ skipped n m rfl) le

end

/-- So is a struct that is made anew. -/
theorem echoes_freshTemplate_limit (setting : Setting) (le : setting.options.maxSearchBytes ≤ limit)
    (depth : Nat) :
    EchoesStructs setting.schema setting.width Warning.Searched (freshTemplate setting depth)
      (anew (setting.withLimit limit)) := by
  refine echoes_freshTemplate (setting.sameRules_withLimit limit)
    (fun depth structs name fields span declared => ?_) depth
  have finds := finds_freshTemplate setting depth
  have made := ends_freshTemplate_makes setting depth
  refine echoes_layOutStruct finds made (setting.sameRules_withLimit limit) declared
    fun field _ => ⟨⟨fun _ => Iff.rfl, fun _ _ => Iff.rfl⟩, ?_⟩
  exact echoes_layOutType_limit le finds made structs false setting.maxDepth _

/-- A root struct is laid out alike with any limit above, if no search was skipped. -/
theorem layOut_withLimit {schema : Schema} {root : String} {options : Options} {layout : Layout}
    (le : options.maxSearchBytes ≤ limit) (laid : schema.layOut root options = .ok layout)
    (searched : ∀ warning ∈ layout.warnings, warning.Searched) :
    schema.layOut root { options with maxSearchBytes := limit } = .ok layout := by
  exact layOut_of_echoes (Setting.sameRules_withLimit { schema, options } limit)
    (echoes_freshTemplate_limit { schema, options } le _) laid searched

/-! ## Where the warnings come from -/

/-- The warning tells of a degradation of some variant. -/
def Warning.Reported (w : Width) (limit : Nat) (warning : Warning) : Prop :=
  ∃ arms r, Resolution.ofArms w limit arms = .ok r ∧ warning.degradation ∈ r.degradations

/-- All of some warnings tell of degradations. -/
def AllReported (w : Width) (limit : Nat) (warnings : Array Warning) : Prop :=
  ∀ warning ∈ warnings, warning.Reported w limit

theorem AllReported.append {warnings others : Array Warning} (h : AllReported w limit warnings)
    (h' : AllReported w limit others) : AllReported w limit (warnings ++ others) := by
  intro warning member
  obtain first | second := Array.mem_append.mp member
  · exact h warning first
  · exact h' warning second

variable {setting : Setting}

mutual

/-- Every warning about a shape that is put into a draft tells of a degradation. -/
theorem Puts.reported {shape : Shape} {before after : Draft} :
    Puts setting shape before after →
      AllReported setting.width setting.options.maxSearchBytes before.warnings →
        AllReported setting.width setting.options.maxSearchBytes after.warnings
  | .leaf _ _ put, start => by
    rwa [((Draft.keepsReports_putLeaf _ _).of_ok put).2]
  | .array _ inside put, start => by
    rw [((Draft.keepsReports_putArray _ _).of_ok put).2]
    exact inside.reported start
  | .variant tag inside resolved put, start => by
    have kept := inside.reported (by rwa [((Draft.keepsReports_putLeaf _ _).of_ok tag).2])
    have warned := congrArg Draft.warnings (Draft.of_putVariant put).2.1
    intro warning member
    rw [warned] at member
    obtain earlier | ⟨degradation, reported, rfl⟩ := Draft.mem_warned.mp member
    · exact kept warning earlier
    · exact ⟨_, _, resolved, reported⟩
  | .record inside, start => inside.reported start
  | .struct made put, start => by
    rw [congrArg Draft.warnings (Draft.of_embed put).1]
    exact start.append made.reported

theorem PutsFields.reported {shapes : List Shape} {before after : Draft} :
    PutsFields setting shapes before after →
      AllReported setting.width setting.options.maxSearchBytes before.warnings →
        AllReported setting.width setting.options.maxSearchBytes after.warnings
  | .nil, start => start
  | .concat earlier last, start => last.reported (earlier.reported start)

theorem PutsArms.reported {shapes : List Shape} {arms : List Arm} {before now : Draft} :
    PutsArms setting shapes arms before now →
      AllReported setting.width setting.options.maxSearchBytes before.warnings →
        AllReported setting.width setting.options.maxSearchBytes now.warnings
  | .nil, start => start
  | .concat earlier last _, start => last.reported (earlier.reported start)

theorem PutsBody.reported {shapes : List Shape} {draft : Draft} :
    PutsBody setting shapes draft →
      AllReported setting.width setting.options.maxSearchBytes draft.warnings
  | .nil => fun warning absent => absurd absent (Array.not_mem_empty warning)
  | .fixed earlier last => last.reported earlier.reported
  | .dynamic earlier inside => earlier.reported.append
      (inside.reported fun warning absent => absurd absent (Array.not_mem_empty warning))

theorem Makes.reported {shapes : List Shape} {t : Template} :
    Makes setting shapes t → AllReported setting.width setting.options.maxSearchBytes t.warnings
  | .made body _ _ _ => body.reported

end

/-- A skipped search is reported with the limit, for an arm above it. -/
theorem Warning.Reported.skipped {warning : Warning} (h : warning.Reported w limit) {n m : Nat}
    (skipped : warning.degradation = .searchSkipped n m) : m = limit ∧ limit < n := by
  obtain ⟨arms, r, resolved, reported⟩ := h
  rw [skipped] at reported
  obtain ⟨⟨rfl, same⟩, above⟩ := (Resolution.skipped_mem_degradations resolved).mp reported
  exact ⟨same, above⟩

/-- A variant above the limit is not perfect. -/
theorem VariantLayout.Resolved.imperfect {v : VariantLayout} (h : v.Resolved w limit)
    (above : limit < v.required) : v.perfect = false := by
  obtain ⟨arms, r, _, resolved, _, _, required, perfect⟩ := h
  rw [required] at above
  have skipped := (Resolution.skipped_mem_degradations resolved).mpr ⟨⟨rfl, rfl⟩, above⟩
  rw [perfect, Resolution.isPerfect, List.isEmpty_eq_false_iff]
  exact List.ne_nil_of_mem skipped

/-- The limit matters for skipped searches only: without such a warning a root struct is laid out
just so with any limit above. A search is skipped only for a variant whose largest arm is above the
limit, and the warning has both numbers. A variant whose largest arm is above the limit is not
perfect. -/
theorem layOut_limit (schema : Schema) (root : String) (requirePerfect : Bool) (limit : Nat) :
    (∀ limit' layout, limit ≤ limit' →
      schema.layOut root { requirePerfect, maxSearchBytes := limit } = .ok layout →
      (∀ warning ∈ layout.warnings, ∀ n m, warning.degradation ≠ .searchSkipped n m) →
        schema.layOut root { requirePerfect, maxSearchBytes := limit' } = .ok layout) ∧
    ∀ layout, schema.layOut root { requirePerfect, maxSearchBytes := limit } = .ok layout →
      (∀ warning ∈ layout.warnings, ∀ n m, warning.degradation = .searchSkipped n m →
        m = limit ∧ limit < n) ∧
      ∀ v ∈ layout.variants, limit < v.required → v.perfect = false := by
  refine ⟨fun limit' layout le laid searched => layOut_withLimit le laid searched,
    fun layout laid => ?_⟩
  obtain ⟨shapes, t, _, makes, done⟩ := exists_makes_of_layOut laid
  rw [congrArg Layout.warnings (Template.of_toLayout done),
    congrArg Layout.variants (Template.of_toLayout done)]
  exact ⟨fun warning listed n m => (makes.reported warning listed).skipped,
    fun v listed => (makes.resolved v listed).imperfect⟩

/-- The largest arm has 4 bytes. -/
theorem layOut_limit_samples :
    (∃ layout, samples.layOut "Sample" { maxSearchBytes := 4 } = .ok layout ∧
      samples.layOut "Sample" { maxSearchBytes := 100 } = .ok layout) ∧
    ∃ layout warning v, samples.layOut "Sample" { maxSearchBytes := 3 } = .ok layout ∧
      layout.warnings = #[warning] ∧ warning.degradation = .searchSkipped 4 3 ∧ 3 < 4 ∧
      layout.variants = #[v] ∧ v.required = 4 ∧ v.perfect = false := by
  constructor
  · obtain ⟨layout, laid, clean⟩ : ∃ layout,
        samples.layOut "Sample" { maxSearchBytes := 4 } = .ok layout ∧ layout.warnings = #[] :=
      ⟨_, by cbv, rfl⟩
    refine ⟨layout, laid, (layOut_limit samples "Sample" false 4).1 100 layout (by decide) laid ?_⟩
    rw [clean]
    exact fun warning absent => absurd absent (Array.not_mem_empty warning)
  · obtain ⟨layout, warning, v, laid, warned, skipped, variants, required⟩ : ∃ layout warning v,
        samples.layOut "Sample" { maxSearchBytes := 3 } = .ok layout ∧
        layout.warnings = #[warning] ∧ warning.degradation = .searchSkipped 4 3 ∧
        layout.variants = #[v] ∧ v.required = 4 := ⟨_, _, _, by cbv, rfl, rfl, rfl, rfl⟩
    obtain ⟨skips, imperfect⟩ := (layOut_limit samples "Sample" false 3).2 layout laid
    have listed : warning ∈ layout.warnings := by rw [warned]; exact Array.mem_singleton.mpr rfl
    have recorded : v ∈ layout.variants := by rw [variants]; exact Array.mem_singleton.mpr rfl
    exact ⟨layout, warning, v, laid, warned, skipped, (skips warning listed 4 3 skipped).2,
      variants, required, imperfect v recorded (by rw [required]; decide)⟩

end PackedLayout
