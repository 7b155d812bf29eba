import PackedLayout.Proofs.Termination

/-!
# Cycles of structs

A struct that contains itself has no layout. It is blamed in an error just if it is met again while
it is underway, so an error that blames a struct is right about it:

- `Blames`: the structs that an error may blame;
- `blames_layOutType`, `blames_layOutStruct`: only the structs that are asked for blame one;
- `keeps_freshTemplate_blames`: a struct that is blamed is reached, and reaches itself;
- `layOut_terminates`: roots are laid out in finitely many steps, and cycles are found.
-/

namespace PackedLayout

open Relation

/-- The error blames no struct for containing itself, unless it is one of these. -/
def Blames (blamed : String → Prop) (e : LayoutError) : Prop :=
  ∀ name, e.cause = .recursiveType name → blamed name

variable {α : Type} {blamed : String → Prop} {w : Width} {span : Span} {draft : Draft}

/-- A run that blames at most these structs. -/
abbrev Blaming (kept : Cache → Prop) (blamed : String → Prop) (act : EngineM α) : Prop :=
  Keeps kept (Blames blamed) (fun _ => True) act

/-! ## Drafts -/

theorem blames_overflow (e : LayoutError) (h : e = .overflow span) : Blames blamed e := by
  rw [h]
  exact nofun

theorem blames_put (item : Item) :
    Ensures (Blames blamed) (fun _ => True) (draft.put w span item) :=
  ((Draft.ensures_put w span item draft).weaken _ blames_overflow).mono fun _ _ => trivial

theorem blames_putLeaf (align : Alignment) (size : Nat) :
    Ensures (Blames blamed) (fun _ => True) (draft.putLeaf w span align size) := by
  unfold Draft.putLeaf
  split
  · exact blames_put _
  · exact nofun

theorem blames_putZones (zones : PerClass Zone) :
    Ensures (Blames blamed) (fun _ => True) (draft.putZones w span zones) :=
  ((Draft.ensures_putZones w span zones draft).weaken _ blames_overflow).mono fun _ _ => trivial

theorem blames_putArray (length : Nat) (element : PerClass Zone) :
    Ensures (Blames blamed) (fun _ => True) (draft.putArray w span length element) := by
  unfold Draft.putArray
  split
  · exact nofun
  · refine Ensures.foldlM (fun _ _ => True) (fun a _ now _ => ?_) trivial
    unfold Draft.putPack
    split
    · trivial
    · split
      · exact nofun
      · exact blames_put _

theorem blames_putVariant (options : Options) (tag arms : Nat) (r : Resolution) :
    Ensures (Blames blamed) (fun _ => True) (draft.putVariant w options span tag arms r) := by
  unfold Draft.putVariant
  split
  · exact nofun
  · exact blames_putZones _

theorem blames_embed (t : Template) :
    Ensures (Blames blamed) (fun _ => True) (draft.embed w span t) := by
  unfold Draft.embed
  split
  · exact nofun
  · exact blames_putZones _

theorem Schema.Refuses.blames {schema : Schema} {id : TypeId} {e : LayoutError}
    (refuses : schema.Refuses id e) : Blames blamed e := by
  cases refuses <;> exact nofun

/-- What fails without a place in the schema blames no struct. -/
theorem blames_located {β : Type} (run : Except Failure β) :
    Ensures (Blames blamed) (fun _ => True) (run.mapError (Failure.locate span)) := by
  cases run with
  | ok b => trivial
  | error failure => cases failure <;> exact nofun

/-! ## Types and structs -/

section Types

variable {setting : Setting} {struct : StructLayout} {kept : Cache → Prop}

theorem blames_layOutNamed {name : String} {draft : Draft}
    (asks : setting.schema.IsStruct name → Blaming kept blamed (struct name span)) :
    Blaming kept blamed (layOutNamed setting span struct name draft) := by
  obtain ⟨run, step⟩ := setting.schema.exists_nameStep name
  rw [step.layOutNamed_eq rfl]
  cases step with
  | unknown | badEnum => exact Keeps.throw nofun
  | enum => exact Keeps.lift (blames_putLeaf _ _)
  | struct declaration =>
    refine (asks ⟨_, Schema.structFields?_eq_some.mpr ⟨_, _, declaration⟩⟩).bind fun t _ => ?_
    split
    · exact Keeps.lift (blames_embed t)
    · exact Keeps.throw nofun

/-- Laying out a type blames what the structs that it mentions blame. -/
theorem blames_layOutType (depth : Nat) {id : TypeId} (draft : Draft)
    (asks : ∀ name, Mentions setting.schema id name → setting.schema.IsStruct name → ∀ span,
      Blaming kept blamed (struct name span)) :
    Blaming kept blamed (layOutType setting struct depth id draft) := by
  induction depth generalizing id draft with
  | zero => exact Keeps.throw nofun
  | succ depth ih =>
    have inside {form : TypeForm} {span : Span} {part : TypeId}
        (node : setting.schema.type? id = some ⟨form, span⟩) (member : part ∈ form.inner)
        (draft : Draft) : Blaming kept blamed (layOutType setting struct depth part draft) :=
      ih draft fun name mentions => asks name (.inner node member mentions)
    obtain ⟨run, step⟩ := setting.schema.exists_typeStep id
    rw [layOutType_succ, step.layOutForm_eq rfl]
    cases step with
    | refused refuses => exact Keeps.throw refuses.blames
    | primitive | string => exact Keeps.lift (blames_putLeaf _ _)
    | array node =>
      unfold layOutArray
      dsimp only [Draft.exchange]
      exact (inside node List.mem_cons_self _).bind fun _ _ => Keeps.lift (blames_putArray _ _)
    | variant node =>
      unfold layOutVariant
      dsimp only [Draft.exchange]
      refine (Keeps.lift (blames_putLeaf _ _)).bind fun tagged _ => ?_
      refine (keeps_collectArms_accepts (fun _ => True) (fun _ => nofun) _ _ _ _
        fun id member => inside node member).bind fun _ _ => ?_
      exact (Keeps.lift (blames_located _)).bind fun _ _ => Keeps.lift (blames_putVariant _ _ _ _)
    | record node =>
      refine (keeps_layOutFields_accepts (fun _ => True) _ _ fun field member =>
        inside node ?_).mono fun _ _ => trivial
      exact List.mem_map_of_mem member
    | named node => exact blames_layOutNamed fun isStruct => asks _ (.named node) isStruct _

theorem blames_layOutField (sofar : Draft × List TrailingField) (field : Field)
    (asks : ∀ name, Mentions setting.schema (setting.schema.laidOut field) name →
      setting.schema.IsStruct name → ∀ span, Blaming kept blamed (struct name span)) :
    Blaming kept blamed (layOutField setting struct sofar field) := by
  obtain ⟨run, step⟩ := setting.schema.exists_fieldStep field
  rw [step.layOutField_eq rfl]
  cases step with
  | string => exact Keeps.pure trivial
  | @dynamic element span node =>
    rw [Schema.laidOut_eq_element node] at asks
    have measured : Blaming kept blamed (elementFootprint setting struct element) := by
      refine (blames_layOutType _ _ asks).bind fun draft _ => ?_
      split
      · exact Keeps.pure trivial
      · exact Keeps.throw nofun
    refine measured.bind fun ⟨footprint, warnings⟩ _ => ?_
    dsimp only
    split
    · exact Keeps.throw nofun
    · exact Keeps.pure trivial
  | fixed _ notDynamic =>
    rw [Schema.laidOut_eq_type notDynamic] at asks
    exact (blames_layOutType _ _ asks).bind fun _ _ => Keeps.pure trivial

/-- Laying out a struct blames what the structs that it refers to blame. -/
theorem blames_layOutStruct {name : String} {fields : List Field}
    (declared : setting.schema.structFields? name = some fields) (span : Span)
    (asks : ∀ other, Refers setting.schema name other → ∀ span,
      Blaming kept blamed (struct other span)) :
    Blaming kept blamed (layOutStruct setting struct name fields span) := by
  unfold layOutStruct
  refine (Keeps.foldlM_all (fun _ => True) (fun _ => True) (fun field member now _ => ?_)
    trivial).bind fun ⟨draft, trailing⟩ _ => ?_
  · refine (blames_layOutField now field fun other mentions isStruct => ?_).mono
      fun _ _ => ⟨trivial, trivial⟩
    exact asks other ⟨fields, field, declared, member, mentions, isStruct⟩
  · dsimp only
    split
    · exact Keeps.throw nofun
    · exact Keeps.pure trivial

end Types

/-! ## Templates -/

/-- The struct is reached from this one, and reaches itself. -/
def Cyclic (schema : Schema) (name other : String) : Prop :=
  ReflTransGen (Refers schema) name other ∧ TransGen (Refers schema) other other

section Templates

variable {setting : Setting} {depth : Nat} {name : String} {trail : List String}

theorem keeps_structBody_blames (span : Span) (leads : LeadsTo setting.schema trail name) :
    Keeps (fun cache => cache.underway = trail) (Blames (Cyclic setting.schema name))
      (fun body => setting.schema.structFields? name = some body.1 ∧ name ∉ trail)
      (structBody setting name span) := by
  unfold structBody
  split
  · exact Keeps.throw nofun
  · exact Keeps.throw nofun
  · rename_i fields declared declaration
    refine Keeps.get.bind fun cache here => ?_
    split
    · rename_i underway
      have member : name ∈ trail := by simpa [here] using underway
      refine Keeps.throw fun other same => ?_
      cases same
      exact ⟨.refl, leads name member⟩
    · rename_i new
      refine Keeps.pure ⟨Schema.structFields?_eq_some.mpr ⟨_, _, declaration⟩, ?_⟩
      simpa [here] using new

/-- A struct that is blamed for containing itself is reached and does so. -/
theorem keeps_freshTemplate_blames (span : Span) (room : Trail setting.schema depth trail)
    (leads : LeadsTo setting.schema trail name) :
    Blaming (fun cache => cache.underway = trail) (Cyclic setting.schema name)
      (freshTemplate setting depth name span) := by
  induction depth generalizing name span trail with
  | zero =>
    unfold freshTemplate
    refine (keeps_structBody_blames span leads).bind ?_
    rintro ⟨fields, declared⟩ ⟨known, new⟩
    exact absurd (room.depth_pos new ⟨fields, known⟩) (Nat.lt_irrefl 0)
  | succ depth ih =>
    unfold freshTemplate
    refine (keeps_structBody_blames span leads).bind ?_
    rintro ⟨fields, declared⟩ ⟨known, new⟩
    have inside (other : String) (refers : Refers setting.schema name other) (span : Span) :
        Blaming (fun cache => cache.underway = name :: trail) (Cyclic setting.schema name)
          (freshTemplate setting depth other span) := by
      refine (ih span (room.enter new ⟨fields, known⟩) (leads.enter refers)).weaken _ ?_
      intro e blames blamed same
      obtain ⟨reached, cycle⟩ := blames blamed same
      exact ⟨reached.head refers, cycle⟩
    exact (blames_layOutStruct known declared inside).whileUnderway name
      (fun _ here => congrArg (name :: ·) here) fun _ here => congrArg List.tail here

end Templates

/-! ## Roots -/

/-- A root that fails for a struct that contains itself is right about it. -/
theorem cyclic_of_layOut {schema : Schema} {root : String} {options : Options} {name : String}
    (failed : schema.layOut root options = .error ⟨.recursiveType name, span⟩) :
    Cyclic schema root name := by
  have run : schema.layOut root options = _ := Engine.layOut_fresh { schema, options } root
  rw [run] at failed
  dsimp only at failed
  generalize (schema.declaration? root).elim .dummy (·.span) = declared at failed
  have blames := (@keeps_freshTemplate_blames { schema, options } _ root [] declared
    (trail_nil schema) nofun ⟨[], []⟩ rfl).2
  cases made : (freshTemplate { schema, options } schema.declarations.length root declared
    ⟨[], []⟩).1 with
  | error e =>
    rw [made] at failed
    cases failed
    exact blames.of_error made name rfl
  | ok t =>
    rw [made] at failed
    exact ((@blames_located (fun _ => False) declared _ (t.toLayout .bits64)).of_error failed name
      rfl).elim

/-- A root that reaches a cycle is not laid out. -/
theorem not_cyclic_of_layOut {schema : Schema} {root : String} {options : Options}
    {layout : Layout} (laid : schema.layOut root options = .ok layout) (name : String) :
    ¬Cyclic schema root name := by
  have run : schema.layOut root options = _ := Engine.layOut_fresh { schema, options } root
  rw [run] at laid
  obtain ⟨t, made, _⟩ := bind_eq_ok.mp laid
  obtain ⟨_, _, acyclic⟩ := fresh_of_run made
  exact fun ⟨reached, cycle⟩ => acyclic name reached cycle

/-- With types that are made of earlier types, a root is laid out in finitely many steps, whatever
the engine has laid out before. Each function of the engine recurs level by level: laying out a type
goes no deeper than there are earlier types, and structs are underway no deeper than there are
declarations, so the recursion may be cut off there and gone on with in any other way. A struct that
is blamed for containing itself is reached from the root and does so. A root that reaches a struct
that contains itself is not laid out. -/
theorem layOut_terminates (schema : Schema) (ordered : schema.Ordered) (options : Options)
    (roots : List String) (root : String) :
    let engine := (Engine.withOptions schema options).after roots
    (∀ struct depth, layOutType engine.setting struct (depth + 1) =
      layOutForm engine.setting struct (layOutType engine.setting struct depth)) ∧
    (∀ depth, template engine.setting (depth + 1) =
      findStruct engine.setting (template engine.setting depth)) ∧
    (∀ struct id node deeper n, schema.type? id = some node → id.raw < n →
      (layOutForm engine.setting struct)^[n] deeper id = layOutNode engine.setting struct id) ∧
    (∀ span deeper n, schema.declarations.length < n →
      (findStruct engine.setting)^[n] deeper root span engine.cache =
        template engine.setting schema.declarations.length root span engine.cache) ∧
    (∀ name span, (engine.layOut root).1 = .error ⟨.recursiveType name, span⟩ →
      ReflTransGen (Refers schema) root name ∧ TransGen (Refers schema) name name) ∧
    ∀ name, ReflTransGen (Refers schema) root name → TransGen (Refers schema) name name →
      ∃ e, (engine.layOut root).1 = .error e := by
  intro engine
  have start : (Engine.withOptions schema options).Certified := ⟨Cache.certified_empty _, rfl⟩
  obtain ⟨⟨_, idle⟩, same⟩ := Engine.after_certified start roots
  have same : engine.setting = { schema, options } := same
  have result : (engine.layOut root).1 = schema.layOut root options :=
    (layOut_after_roots schema options roots root).1
  rw [same, result]
  refine ⟨fun _ => layOutType_succ _ _, template_succ _, ?types, ?structs,
    fun name span failed => cyclic_of_layOut failed, ?cycles⟩
  case types =>
    intro struct id node deeper n known deep
    exact @iterate_layOutForm_eq_layOutNode { schema, options } struct ordered id node n known deep
      deeper
  case structs =>
    intro span deeper n deep
    have room := trail_nil schema
    rw [← idle] at room
    obtain ⟨_, _, absurd⟩ | ⟨outcome, ⟨after, _⟩, _⟩ := @agree_iterate_findStruct
      { schema, options } deeper _ n _ root span room deep engine.cache engine.cache ⟨rfl, rfl⟩
    · exact absurd.elim
    · exact Prod.ext outcome after
  case cycles =>
    intro name reached cycle
    cases laid : schema.layOut root options with
    | error e => exact ⟨e, rfl⟩
    | ok layout => exact absurd ⟨reached, cycle⟩ (not_cyclic_of_layOut laid name)

/-- The two structs of the cycle fail, and the struct apart from it is found in one level. -/
theorem layOut_terminates_rings :
    let engine := (Engine.withOptions rings .default).after ["Apart"]
    (∃ span, (engine.layOut "Forth").1 = .error ⟨.recursiveType "Forth", span⟩ ∧
      TransGen (Refers rings) "Forth" "Forth") ∧
    (∃ e, (engine.layOut "Back").1 = .error e) ∧
    (∀ struct deeper, (layOutForm engine.setting struct)^[3] deeper ⟨2⟩ =
      layOutNode engine.setting struct ⟨2⟩) ∧
    ∀ deeper, (findStruct engine.setting)^[4] deeper "Apart" .dummy engine.cache =
      template engine.setting 3 "Apart" .dummy engine.cache := by
  intro engine
  have ordered : rings.Ordered := by decide
  have ends (root : String) := layOut_terminates rings ordered .default ["Apart"] root
  have failed : (engine.layOut "Forth").1 = .error ⟨.recursiveType "Forth", .dummy⟩ := by
    decide +kernel
  have there : Refers rings "Back" "Forth" :=
    ⟨_, _, rfl, List.mem_singleton_self _, .named rfl, ⟨_, rfl⟩⟩
  have back : Refers rings "Forth" "Back" :=
    ⟨_, _, rfl, List.mem_singleton_self _, .named rfl, ⟨_, rfl⟩⟩
  obtain ⟨_, _, _, _, blamed, _⟩ := ends "Forth"
  obtain ⟨_, _, _, _, _, cycles⟩ := ends "Back"
  obtain ⟨_, _, types, structs, _, _⟩ := ends "Apart"
  refine ⟨⟨_, failed, (blamed "Forth" _ failed).2⟩, ?_, fun struct deeper => ?_,
    fun deeper => ?_⟩
  · exact cycles "Forth" (.single there) (.tail (.single back) there)
  · exact types struct ⟨2⟩ _ deeper 3 rfl (by decide)
  · exact structs .dummy deeper 4 (by decide)

end PackedLayout
