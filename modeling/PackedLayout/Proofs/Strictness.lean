import PackedLayout.Proofs.Derivations
import PackedLayout.Proofs.Elements

/-!
# Strict layouts

Where only perfect storage is accepted, a layout is made as it is made elsewhere, up to the first
warning. That warning is the error then.

- `Screened`: two such runs side by side, with rules for the ways in which runs are put together;
- `Accumulates`: the run that goes on keeps the first warning;
- `screened_layOutType`, `screened_layOutStruct`, `screened_freshTemplate`: types and structs;
- `strict_layOut`: root structs.
-/

namespace PackedLayout

/-- What a warning is where only perfect storage is accepted. -/
def Warning.rejection (warning : Warning) : LayoutError :=
  ⟨.imperfectLayout warning.degradation, warning.span⟩

/-- Imperfect storage gets a warning. -/
def Setting.lenient (schema : Schema) (limit : Nat) : Setting where
  schema := schema
  options := { requirePerfect := false, maxSearchBytes := limit }

/-- Imperfect storage is an error. -/
def Setting.strict (schema : Schema) (limit : Nat) : Setting where
  schema := schema
  options := { requirePerfect := true, maxSearchBytes := limit }

abbrev Draft.reported (draft : Draft) : List Warning := draft.warnings.toList

/-! ## Runs side by side -/

section

variable {α β : Type} {schema : Schema} {w : Width} {warnings : α → List Warning}
  {further : β → List Warning}

/-- The strict run fails with the first warning of the lenient one, or there is no warning and both
end alike. -/
def Screens (warnings : α → List Warning) (lenient strict : Except LayoutError α × Cache) : Prop :=
  (∃ first, strict.1 = .error (Warning.rejection first) ∧
    ∀ a, lenient.1 = .ok a → (warnings a).head? = some first) ∨
    (strict = lenient ∧ ∀ a, lenient.1 = .ok a → warnings a = [])

/-- The runs of two engines with the same sound cache, of which one only accepts perfect storage. -/
def Screened (schema : Schema) (w : Width) (warnings : α → List Warning)
    (lenient strict : EngineM α) : Prop :=
  ∀ cache, cache.Sound schema w → (lenient cache).2.Sound schema w ∧
    Screens warnings (lenient cache) (strict cache)

namespace Screened

variable {act act' : EngineM α}

theorem same (h : Ends schema w (fun a => warnings a = []) act) :
    Screened schema w warnings act act :=
  fun cache sound => ⟨(h cache sound).1, .inr ⟨rfl, fun _ done => (h cache sound).2.of_ok done⟩⟩

/-- The lenient run goes on after its first warning, and must keep it. -/
theorem bind {next next' : α → EngineM β} (h : Screened schema w warnings act act')
    (later : ∀ a, Ends schema w (fun b => warnings a <+: further b) (next a))
    (step : ∀ a, warnings a = [] → Screened schema w further (next a) (next' a)) :
    Screened schema w further (act >>= next) (act' >>= next') := by
  intro cache sound
  obtain ⟨sound, screens⟩ := h cache sound
  show Cache.Sound schema w (ExceptT.bindCont next (act cache).1 (act cache).2).2 ∧
    Screens further (ExceptT.bindCont next (act cache).1 (act cache).2)
      (ExceptT.bindCont next' (act' cache).1 (act' cache).2)
  obtain ⟨first, failed, reported⟩ | ⟨same, clean⟩ := screens
  · rw [failed]
    cases ran : (act cache).1 with
    | error e => exact ⟨sound, .inl ⟨first, rfl, nofun⟩⟩
    | ok a =>
      obtain ⟨sound, kept⟩ := later a _ sound
      refine ⟨sound, .inl ⟨first, rfl, fun b done => ?_⟩⟩
      obtain ⟨rest, whole⟩ := kept.of_ok done
      rw [← whole, List.head?_append, reported a ran]
      rfl
  · rw [same]
    cases ran : (act cache).1 with
    | error e => exact ⟨sound, .inr ⟨rfl, nofun⟩⟩
    | ok a => exact step a (clean a ran) _ sound

/-- A run without warnings comes first. -/
theorem after {value : α → Prop} {next next' : α → EngineM β} (h : Ends schema w value act)
    (step : ∀ a, value a → Screened schema w further (next a) (next' a)) :
    Screened schema w further (act >>= next) (act >>= next') := by
  intro cache sound
  obtain ⟨sound, ensures⟩ := h cache sound
  show Cache.Sound schema w (ExceptT.bindCont next (act cache).1 (act cache).2).2 ∧
    Screens further (ExceptT.bindCont next (act cache).1 (act cache).2)
      (ExceptT.bindCont next' (act cache).1 (act cache).2)
  cases ran : (act cache).1 with
  | error e => exact ⟨sound, .inr ⟨rfl, nofun⟩⟩
  | ok a => exact step a (ensures.of_ok ran) _ sound

theorem foldlM {step step' : β → α → EngineM β}
    (later : ∀ b x, Ends schema w (fun next => further b <+: further next) (step b x))
    (each : ∀ b x, further b = [] → Screened schema w further (step b x) (step' b x))
    {xs : List α} {b : β} (start : further b = []) :
    Screened schema w further (xs.foldlM step b) (xs.foldlM step' b) := by
  induction xs generalizing b with
  | nil => exact same (Keeps.pure start)
  | cons x rest ih =>
    rw [List.foldlM_cons, List.foldlM_cons]
    refine (each b x start).bind (fun next => ?_) fun next clean => ih clean
    exact Keeps.foldlM (fun _ now => further next <+: further now)
      (fun y _ now kept => (later now y).mono fun _ more => kept.trans more) List.prefix_rfl

theorem whileUnderway (name : String) (h : Screened schema w warnings act act') :
    Screened schema w warnings (whileUnderway name act) (whileUnderway name act') := by
  intro cache sound
  obtain ⟨sound, screens⟩ := h (cache.enter name) sound
  refine ⟨sound, ?_⟩
  obtain ⟨first, failed, reported⟩ | ⟨same, clean⟩ := screens
  · exact .inl ⟨first, failed, reported⟩
  · refine .inr ⟨?_, clean⟩
    unfold PackedLayout.whileUnderway
    rw [same]

end Screened

end

/-! ## Types -/

/-- Putting a type into a draft keeps the warnings of the draft, in front of the new ones. -/
def Accumulates (schema : Schema) (w : Width) (layOut : TypeLayout) : Prop :=
  ∀ id draft, Ends schema w (fun after => draft.reported <+: after.reported) (layOut id draft)

/-- Types are put into drafts side by side, as long as there is no warning. -/
def ScreensTypes (schema : Schema) (w : Width) (layOut layOut' : TypeLayout) : Prop :=
  ∀ id draft, draft.reported = [] →
    Screened schema w Draft.reported (layOut id draft) (layOut' id draft)

section

variable {schema : Schema} {w : Width} {layOut layOut' : TypeLayout} {span : Span} {draft : Draft}

theorem PutsTypes.accumulates {setting : Setting} (puts : PutsTypes setting layOut) :
    Accumulates setting.schema setting.width layOut :=
  fun id draft => (puts id draft).mono fun _ ⟨_, _, put⟩ => put.warnings

/-- What leaves the reports alone is the same in both runs. -/
theorem screened_keepsReports {run : Except LayoutError Draft} (kept : draft.KeepsReports run)
    (clean : draft.reported = []) : Screened schema w Draft.reported (liftM run) (liftM run) := by
  refine .same (Keeps.lift (kept.mono fun after same => ?_))
  rw [Draft.reported, same.2]
  exact clean

theorem screened_layOutFields (accumulates : Accumulates schema w layOut)
    (screens : ScreensTypes schema w layOut layOut') (fields : List Field)
    (clean : draft.reported = []) :
    Screened schema w Draft.reported (layOutFields layOut fields draft)
      (layOutFields layOut' fields draft) := by
  unfold layOutFields
  exact .foldlM (fun now (field : Field) => accumulates field.type now)
    (fun now (field : Field) => screens field.type now) clean

theorem screened_layOutArray (screens : ScreensTypes schema w layOut layOut') (element : TypeId)
    (length : Nat) (clean : draft.reported = []) :
    Screened schema w Draft.reported (layOutArray w span layOut element length draft)
      (layOutArray w span layOut' element length draft) := by
  unfold layOutArray
  dsimp only [Draft.exchange]
  refine (screens element { draft with container := .emptyBody } clean).bind
    (fun inner => Keeps.lift ?_) fun inner clean => ?_
  · refine (Draft.keepsReports_putArray length _).mono fun after same => ?_
    rw [Draft.reported, Draft.reported, same.2]
  · exact screened_keepsReports (Draft.keepsReports_putArray length _) clean

theorem accumulates_collectArms (accumulates : Accumulates schema w layOut) (index : Nat)
    (collected : List Arm) (ids : List TypeId) (draft : Draft) :
    Ends schema w (fun r => draft.reported <+: r.2.reported)
      (collectArms w span layOut index collected ids draft) := by
  induction ids generalizing index collected draft with
  | nil => exact Keeps.pure List.prefix_rfl
  | cons id rest ih =>
    unfold collectArms
    refine (accumulates id draft).bind fun next kept => ?_
    dsimp only [Draft.exchange]
    split
    · exact (ih _ _ _).mono fun r more => kept.trans more
    · exact Keeps.throw trivial

theorem screened_collectArms (accumulates : Accumulates schema w layOut)
    (screens : ScreensTypes schema w layOut layOut') (index : Nat) (collected : List Arm)
    (ids : List TypeId) (clean : draft.reported = []) :
    Screened schema w (fun r => r.2.reported)
      (collectArms w span layOut index collected ids draft)
      (collectArms w span layOut' index collected ids draft) := by
  induction ids generalizing index collected draft with
  | nil => exact .same (Keeps.pure clean)
  | cons id rest ih =>
    unfold collectArms
    refine (screens id draft clean).bind (fun next => ?_) fun next clean => ?_
    · dsimp only [Draft.exchange]
      split
      · exact accumulates_collectArms accumulates _ _ _ _
      · exact Keeps.throw trivial
    · dsimp only [Draft.exchange]
      split
      · exact ih _ _ clean
      · exact .same (Keeps.throw trivial)

/-- The first degradation of a variant is its first warning, or it is the error. -/
theorem screened_putVariant (limit tag arms : Nat) (r : Resolution) (clean : draft.reported = []) :
    Screened schema w Draft.reported
      (liftM (draft.putVariant w { requirePerfect := false, maxSearchBytes := limit } span tag arms
        r))
      (liftM (draft.putVariant w { requirePerfect := true, maxSearchBytes := limit } span tag arms
        r)) := by
  have lenient (after : Draft) (put : draft.putVariant w
      { requirePerfect := false, maxSearchBytes := limit } span tag arms r = .ok after) :
      after.reported = r.degradations.map fun d => (⟨d, span⟩ : Warning) := by
    have warned := congrArg Draft.warnings (Draft.of_putVariant put).2.1
    simp [Draft.reported, warned, Array.toList_eq_nil_iff.mp clean]
  intro cache sound
  refine ⟨sound, ?_⟩
  cases degraded : r.degradations with
  | nil =>
    refine .inr ⟨?_, fun after put => ?_⟩
    · unfold Draft.putVariant
      rw [degraded]
    · rw [lenient after put, degraded]
      rfl
  | cons reason rest =>
    refine .inl ⟨⟨reason, span⟩, ?_, fun after put => ?_⟩
    · unfold Draft.putVariant
      rw [degraded]
      rfl
    · rw [lenient after put, degraded]
      rfl

theorem accumulates_putVariant (options : Options) (tag arms : Nat) (r : Resolution)
    (draft : Draft) :
    Ensures (fun _ => True) (fun after => draft.reported <+: after.reported)
      (draft.putVariant w options span tag arms r) := by
  refine (ensures_eq_ok _).mono fun after put => ?_
  have warned := congrArg Draft.warnings (Draft.of_putVariant put).2.1
  simp [Draft.reported, warned]

/-- The warnings of a variant come behind those in its arms. -/
theorem screened_layOutVariant (limit : Nat) (accumulates : Accumulates schema w layOut)
    (screens : ScreensTypes schema w layOut layOut') (arms : List TypeId)
    (clean : draft.reported = []) :
    Screened schema w Draft.reported
      (layOutVariant w { requirePerfect := false, maxSearchBytes := limit } span layOut arms draft)
      (layOutVariant w { requirePerfect := true, maxSearchBytes := limit } span layOut' arms
        draft) := by
  unfold layOutVariant
  dsimp only [Draft.exchange]
  refine .after (Keeps.lift (Draft.keepsReports_putLeaf _ _)) fun tagged same => ?_
  have untouched : Draft.reported { tagged with container := .arm [] } = [] := by
    rw [Draft.reported, same.2]
    exact clean
  refine (screened_collectArms accumulates screens 0 [] arms untouched).bind
    (fun ⟨collected, filled⟩ => ?_) fun ⟨collected, filled⟩ clean => ?_
  · exact (keeps_anything _).bind fun r _ => Keeps.lift (accumulates_putVariant _ _ _ r _)
  · exact .after (keeps_anything _) fun r _ => screened_putVariant limit _ _ r clean

end

section

variable {schema : Schema} {limit : Nat} {struct struct' : StructLayout} {span : Span}
  {draft : Draft}

/-- Structs are found side by side. -/
def ScreensStructs (schema : Schema) (struct struct' : StructLayout) : Prop :=
  ∀ name span, Screened schema .bits64 (fun t => t.warnings.toList) (struct name span)
    (struct' name span)

/-- The warnings of a struct are those of its copies. -/
theorem screened_layOutNamed (screens : ScreensStructs schema struct struct') (name : String)
    (clean : draft.reported = []) :
    Screened schema .bits64 Draft.reported
      (layOutNamed (.lenient schema limit) span struct name draft)
      (layOutNamed (.strict schema limit) span struct' name draft) := by
  have embedded (t : Template) (after : Draft) (put : draft.embed .bits64 span t = .ok after) :
      after.reported = t.warnings.toList := by
    have warned := congrArg Draft.warnings (Draft.of_embed put).1
    simp [Draft.reported, warned, Array.toList_eq_nil_iff.mp clean]
  obtain ⟨run, step⟩ := schema.exists_nameStep name
  rw [step.layOutNamed_eq rfl, step.layOutNamed_eq rfl]
  cases step with
  | unknown | badEnum => exact .same (Keeps.throw trivial)
  | enum => exact screened_keepsReports (Draft.keepsReports_putLeaf _ _) clean
  | struct =>
    refine (screens name span).bind (fun t => ?_) fun t still => ?_
    · split
      · refine Keeps.lift ((ensures_eq_ok _).mono fun after put => ?_)
        rw [embedded t after put]
      · exact Keeps.throw trivial
    · split
      · refine .same (Keeps.lift ((ensures_eq_ok _).mono fun after put => ?_))
        rw [embedded t after put, still]
      · exact .same (Keeps.throw trivial)

section Structs

variable (finds : Finds schema .bits64 struct) (made : FindsMade (.lenient schema limit) struct)

include finds made

theorem accumulates_layOutField (sofar : Draft × List TrailingField) (field : Field) :
    Ends schema .bits64 (fun next => sofar.1.reported <+: next.1.reported)
      (layOutField (.lenient schema limit) struct sofar field) := by
  have accumulates := (ends_layOutType_puts finds made
    (Setting.lenient schema limit).maxDepth).accumulates
  obtain ⟨run, step⟩ := schema.exists_fieldStep field
  rw [step.layOutField_eq rfl]
  cases step with
  | string => exact Keeps.pure List.prefix_rfl
  | dynamic =>
    refine (ends_elementFootprint_puts finds made _).bind fun ⟨footprint, warnings⟩ _ => ?_
    dsimp only
    split
    · exact Keeps.throw trivial
    · exact Keeps.pure (by simp [Draft.reported])
  | fixed => exact (accumulates field.type sofar.1).bind fun _ more => Keeps.pure more

variable (screens : ScreensStructs schema struct struct')

include screens

theorem screened_layOutType (depth : Nat) :
    ScreensTypes schema .bits64 (layOutType (.lenient schema limit) struct depth)
      (layOutType (.strict schema limit) struct' depth) := by
  induction depth with
  | zero => exact fun id draft _ => .same (Keeps.throw trivial)
  | succ depth ih =>
    intro id draft clean
    have accumulates := (ends_layOutType_puts finds made depth).accumulates
    obtain ⟨run, step⟩ := schema.exists_typeStep id
    rw [layOutType_succ, layOutType_succ, step.layOutForm_eq rfl, step.layOutForm_eq rfl]
    cases step with
    | refused => exact .same (Keeps.throw trivial)
    | primitive | string => exact screened_keepsReports (Draft.keepsReports_putLeaf _ _) clean
    | array => exact screened_layOutArray ih _ _ clean
    | variant => exact screened_layOutVariant limit accumulates ih _ clean
    | record => exact screened_layOutFields accumulates ih _ clean
    | named => exact screened_layOutNamed screens _ clean

theorem screened_elementFootprint (element : TypeId) :
    Screened schema .bits64 (fun r => r.2.toList)
      (elementFootprint (.lenient schema limit) struct element)
      (elementFootprint (.strict schema limit) struct' element) := by
  unfold elementFootprint
  refine (screened_layOutType finds made screens _ element .empty rfl).bind
    (fun draft => ?_) fun draft clean => ?_
  · split
    · exact Keeps.pure List.prefix_rfl
    · exact Keeps.throw trivial
  · dsimp only [Setting.lenient, Setting.strict]
    split
    · exact .same (Keeps.pure clean)
    · exact .same (Keeps.throw trivial)

theorem screened_layOutField (sofar : Draft × List TrailingField) (field : Field)
    (clean : sofar.1.reported = []) :
    Screened schema .bits64 (fun next => next.1.reported)
      (layOutField (.lenient schema limit) struct sofar field)
      (layOutField (.strict schema limit) struct' sofar field) := by
  obtain ⟨run, step⟩ := schema.exists_fieldStep field
  rw [step.layOutField_eq rfl, step.layOutField_eq rfl]
  cases step with
  | string => exact .same (Keeps.pure clean)
  | dynamic =>
    refine (screened_elementFootprint finds made screens _).bind
      (fun ⟨footprint, warnings⟩ => ?_) fun ⟨footprint, warnings⟩ still => ?_
    · dsimp only
      split
      · exact Keeps.throw trivial
      · exact Keeps.pure (by simp [Draft.reported, Array.toList_eq_nil_iff.mp clean])
    · dsimp only
      split
      · exact .same (Keeps.throw trivial)
      · have none : warnings = #[] := Array.toList_eq_nil_iff.mp still
        exact .same (Keeps.pure (by simpa [Draft.reported, none] using clean))
  | fixed =>
    exact (screened_layOutType finds made screens _ field.type sofar.1 clean).bind
      (fun _ => Keeps.pure List.prefix_rfl) fun _ still => .same (Keeps.pure still)

theorem screened_layOutStruct (name : String) (fields : List Field) (span : Span) :
    Screened schema .bits64 (fun t => t.warnings.toList)
      (layOutStruct (.lenient schema limit) struct name fields span)
      (layOutStruct (.strict schema limit) struct' name fields span) := by
  unfold layOutStruct
  refine (Screened.foldlM (accumulates_layOutField finds made)
    (screened_layOutField finds made screens) rfl).bind
      (fun ⟨draft, trailing⟩ => ?_) fun ⟨draft, trailing⟩ clean => ?_
  · dsimp only
    split
    · exact Keeps.throw trivial
    · exact Keeps.pure List.prefix_rfl
  · dsimp only [Setting.lenient, Setting.strict]
    split
    · exact .same (Keeps.throw trivial)
    · exact .same (Keeps.pure clean)

end Structs

end

/-! ## Structs and roots -/

theorem screened_freshTemplate (schema : Schema) (limit depth : Nat) :
    ScreensStructs schema (freshTemplate (.lenient schema limit) depth)
      (freshTemplate (.strict schema limit) depth) := by
  have body (name : String) (span : Span) := (@keeps_structBody (.lenient schema limit)
    (Cache.Sound schema .bits64) name span).anyway
  induction depth with
  | zero =>
    intro name span
    unfold freshTemplate
    exact .after (body name span) fun _ _ => .same (Keeps.throw trivial)
  | succ depth ih =>
    intro name span
    unfold freshTemplate
    refine .after (body name span) fun found _ => .whileUnderway name ?_
    exact screened_layOutStruct (finds_freshTemplate (.lenient schema limit) depth)
      (ends_freshTemplate_makes (.lenient schema limit) depth) ih name found.1 found.2

/-- A layout has the warnings of its template. -/
theorem Template.warnings_of_toLayout {w : Width} {t : Template} {layout : Layout} {span : Span}
    (done : (t.toLayout w).mapError (Failure.locate span) = .ok layout) :
    layout.warnings = t.warnings := by
  cases run : t.toLayout w with
  | error e =>
    rw [run] at done
    contradiction
  | ok made =>
    rw [run] at done
    cases done
    rw [Template.of_toLayout run]

/-- A root struct is laid out strictly as it is elsewhere, up to its first warning. -/
theorem screens_layOut (schema : Schema) (root : String) (limit : Nat) :
    let lenient := schema.layOut root { requirePerfect := false, maxSearchBytes := limit }
    let strict := schema.layOut root { requirePerfect := true, maxSearchBytes := limit }
    (∃ first, strict = .error (Warning.rejection first) ∧
      ∀ layout, lenient = .ok layout → layout.warnings.toList.head? = some first) ∨
      (strict = lenient ∧ ∀ layout, lenient = .ok layout → layout.warnings.toList = []) := by
  intro lenient strict
  have runs : lenient = _ := Engine.layOut_fresh (.lenient schema limit) root
  have runs' : strict = _ := Engine.layOut_fresh (.strict schema limit) root
  rw [runs, runs']
  dsimp only [Setting.lenient, Setting.strict]
  generalize (schema.declaration? root).elim .dummy (·.span) = span
  obtain ⟨first, failed, reported⟩ | ⟨same, clean⟩ :=
    (screened_freshTemplate schema limit schema.declarations.length root span ⟨[], []⟩ nofun).2
  · refine .inl ⟨first, ?_, fun layout laid => ?_⟩
    · rw [Setting.strict] at failed
      rw [failed]
      rfl
    · obtain ⟨t, made, done⟩ := bind_eq_ok.mp laid
      rw [Template.warnings_of_toLayout done]
      exact reported t made
  · refine .inr ⟨?_, fun layout laid => ?_⟩
    · rw [Setting.strict] at same
      rw [same]
      rfl
    · obtain ⟨t, made, done⟩ := bind_eq_ok.mp laid
      rw [Template.warnings_of_toLayout done]
      exact clean t made

/-- Strictly a root struct is laid out just as it is elsewhere if there are no warnings, and the
first warning is the error otherwise. A root that fails elsewhere fails in the same way, or for
imperfect storage that is met earlier. -/
theorem strict_layOut (schema : Schema) (root : String) (limit : Nat) :
    let lenient := schema.layOut root { requirePerfect := false, maxSearchBytes := limit }
    let strict := schema.layOut root { requirePerfect := true, maxSearchBytes := limit }
    (∀ layout, lenient = .ok layout → layout.warnings = #[] → strict = .ok layout) ∧
    (∀ layout first rest, lenient = .ok layout → layout.warnings.toList = first :: rest →
      strict = .error ⟨.imperfectLayout first.degradation, first.span⟩) ∧
    (∀ e, lenient = .error e →
      strict = .error e ∨ ∃ reason span, strict = .error ⟨.imperfectLayout reason, span⟩) ∧
    ∀ layout, strict = .ok layout → lenient = .ok layout ∧ layout.warnings = #[] := by
  intro lenient strict
  obtain ⟨first, failed, reported⟩ | ⟨same, clean⟩ := screens_layOut schema root limit
  · refine ⟨fun layout laid none => ?_, fun layout warning rest laid warned => ?_,
      fun e _ => .inr ⟨_, _, failed⟩, fun layout laid => ?_⟩
    · have head := reported layout laid
      rw [none] at head
      contradiction
    · have head := reported layout laid
      rw [warned] at head
      cases head
      exact failed
    · rw [show strict = _ from failed] at laid
      contradiction
  · refine ⟨fun layout laid _ => same.trans laid, fun layout warning rest laid warned => ?_,
      fun e failed => .inl (same.trans failed), fun layout laid => ?_⟩
    · rw [clean layout laid] at warned
      contradiction
    · have laid := same.symm.trans laid
      exact ⟨laid, Array.toList_eq_nil_iff.mp (clean layout laid)⟩

/-- The search is skipped for an arm of 4 bytes if the limit is below. -/
theorem strict_layOut_samples :
    samples.layOut "Sample" { requirePerfect := true, maxSearchBytes := 3 } =
        .error ⟨.imperfectLayout (.searchSkipped 4 3), .dummy⟩ ∧
      ∃ layout, samples.layOut "Sample" { requirePerfect := false, maxSearchBytes := 4 } =
          .ok layout ∧
        samples.layOut "Sample" { requirePerfect := true, maxSearchBytes := 4 } = .ok layout := by
  obtain ⟨skipped, laid, warned⟩ : ∃ layout, samples.layOut "Sample"
      { requirePerfect := false, maxSearchBytes := 3 } = .ok layout ∧
      layout.warnings.toList = [⟨.searchSkipped 4 3, .dummy⟩] := ⟨_, by cbv, rfl⟩
  obtain ⟨layout, laid', clean⟩ : ∃ layout, samples.layOut "Sample"
      { requirePerfect := false, maxSearchBytes := 4 } = .ok layout ∧ layout.warnings = #[] :=
    ⟨_, by cbv, rfl⟩
  exact ⟨(strict_layOut samples "Sample" 3).2.1 skipped _ _ laid warned, layout, laid',
    (strict_layOut samples "Sample" 4).1 layout laid' clean⟩

end PackedLayout
