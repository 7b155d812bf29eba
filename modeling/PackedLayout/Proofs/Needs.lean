import PackedLayout.Proofs.Caching
import PackedLayout.Proofs.DraftWords
import PackedLayout.Proofs.Templates

/-!
# What a layout needs

In exact arithmetic a layout needs numbers of bytes on its way: what a container holds so far, the
storage of a variant. In words the same layout is made, or it overflows because such a number is
too large.

- `TypeNeeds`, `StructNeeds`: the numbers that a type and a struct need;
- `steps_layOutArray`, `steps_layOutVariant`, `steps_layOutNamed`: one lemma for each form of a
  type;
- `steps_layOutType`: so a type only overflows for what it needs.
-/

namespace PackedLayout

/-- A schema as it is laid out in exact arithmetic. -/
abbrev exactSetting (schema : Schema) (options : Options) : Setting :=
  { schema, options, width := .unbounded }

/-- A schema as it is laid out in words. -/
abbrev wordSetting (schema : Schema) (options : Options) : Setting := { schema, options }

/-- Puts the tag of a variant into a draft. -/
def putTag (w : Width) (span : Span) (arms : List TypeId) (draft : Draft) :
    Except LayoutError Draft :=
  draft.putLeaf w span (.ofSize (tagSize arms.length)) (tagSize arms.length)

section

variable (schema : Schema) (options : Options) (struct : StructLayout) (cache : Cache)
  (inner : String → Nat → Prop)

/-- Numbers of bytes that a type needs when it is put into a draft, where `inner` says what structs
need. -/
inductive TypeNeeds : Nat → TypeId → Draft → Nat → Prop
  /-- What the struct, the element or the arm around the type holds with it. -/
  | whole {depth n : Nat} {id : TypeId} {draft : Draft}
    (laid : Draft.Holding
      (layOutType (exactSetting schema options) struct depth id draft cache).1 n) :
    TypeNeeds depth id draft n
  | element {depth length n : Nat} {id element : TypeId} {span : Span} {draft : Draft}
    (node : schema.type? id = some ⟨.array element (.fixed length), span⟩)
    (needs : TypeNeeds depth element { draft with container := .emptyBody } n) :
    TypeNeeds (depth + 1) id draft n
  | field {depth n : Nat} {id : TypeId} {fields : List Field} {field : Field} {span : Span}
    {draft now : Draft} (node : schema.type? id = some ⟨.record fields, span⟩)
    (turn : Turn (fun now field =>
      (layOutType (exactSetting schema options) struct depth field.type now cache).1)
      fields draft field now)
    (needs : TypeNeeds depth field.type now n) : TypeNeeds (depth + 1) id draft n
  | tag {depth n : Nat} {id : TypeId} {arms : List TypeId} {encoding : VariantEncoding}
    {span : Span} {draft : Draft} (node : schema.type? id = some ⟨.variant arms encoding, span⟩)
    (tagged : Draft.Holding (putTag .unbounded span arms draft) n) :
    TypeNeeds (depth + 1) id draft n
  | arm {depth n : Nat} {id arm : TypeId} {arms : List TypeId} {encoding : VariantEncoding}
    {span : Span} {draft tagged now : Draft}
    (node : schema.type? id = some ⟨.variant arms encoding, span⟩)
    (tag : putTag .unbounded span arms draft = .ok tagged)
    (turn : Turn (fun now arm =>
      (layOutType (exactSetting schema options) struct depth arm now cache).1.map
        fun next => { next with container := .arm [] })
      arms { tagged with container := .arm [] } arm now)
    (needs : TypeNeeds depth arm now n) : TypeNeeds (depth + 1) id draft n
  | storage {depth : Nat} {id : TypeId} {arms : List TypeId} {encoding : VariantEncoding}
    {span : Span} {draft tagged next : Draft} {collected : List Arm} {r : Resolution}
    (node : schema.type? id = some ⟨.variant arms encoding, span⟩)
    (tag : putTag .unbounded span arms draft = .ok tagged)
    (collect : (collectArms .unbounded span
      (layOutType (exactSetting schema options) struct depth) 0 [] arms
      { tagged with container := .arm [] } cache).1 = .ok (collected, next))
    (resolve : Resolution.ofArms .unbounded options.maxSearchBytes collected = .ok r) :
    TypeNeeds (depth + 1) id draft r.layout.total
  | named {depth n : Nat} {id : TypeId} {name : String} {span : Span} {draft : Draft}
    (node : schema.type? id = some ⟨.named name, span⟩) (needs : inner name n) :
    TypeNeeds (depth + 1) id draft n

end

variable {schema : Schema} {options : Options} {cache : Cache} {span : Span}
  {layOut layOut' : TypeLayout} {struct struct' : StructLayout} {inner : String → Nat → Prop}
  {draft : Draft}

/-- What a run goes on from belongs to the run. -/
theorem Draft.Holding.after {α : Type} {act : EngineM α} {next : α → EngineM Draft} {a : α}
    {n : Nat} (h : Holding (next a cache).1 n) (ran : act cache = (.ok a, cache)) :
    Holding ((act >>= next) cache).1 n := by
  rw [bind_of_ok ran]
  exact h

/-! ## Forms of types -/

/-- An array needs what its element needs, and room for all elements. -/
theorem steps_layOutArray {need : Nat → Prop} (lays : Lays schema .bits64 layOut)
    (sound : cache.Sound schema .bits64) {element : TypeId} {length : Nat} (pos : 0 < length)
    (room : draft.slots ≤ maxSlots)
    (inside : Steps cache need (fun _ => True)
      (layOut element { draft with container := .emptyBody })
      (layOut' element { draft with container := .emptyBody })) :
    Steps cache (fun n => need n ∨
        Draft.Holding (layOutArray .unbounded span layOut' element length draft cache).1 n)
      (fun _ => True) (layOutArray .bits64 span layOut element length draft)
      (layOutArray .unbounded span layOut' element length draft) := by
  unfold layOutArray
  dsimp only [Draft.exchange]
  refine ((inside.ensuring (lays element _ room) sound).allow fun n => .inl).bind ?_
  intro made ⟨_, shape, _, grown⟩ ran
  obtain ⟨items, put, realizes⟩ := grown.items
  obtain ⟨zones, whole⟩ := realizes.body put
  refine ((Steps.lift (Draft.putArray_inWords pos (fun a => (whole a).1)
    (Draft.contained_of_realizes zones)).matches).mono fun _ _ => trivial).allow fun n holding => ?_
  exact .inr (Draft.Holding.after holding ran)

/-- A record needs what its fields need. -/
theorem steps_layOutFields (need : TypeId → Draft → Nat → Prop)
    (lays : Lays schema .bits64 layOut) (sound : cache.Sound schema .bits64) (fields : List Field)
    (room : draft.slots ≤ maxSlots)
    (inside : ∀ field ∈ fields, ∀ draft : Draft, draft.slots ≤ maxSlots →
      Steps cache (need field.type draft) (fun _ => True) (layOut field.type draft)
        (layOut' field.type draft)) :
    Steps cache (fun n => ∃ field now, Turn (fun now field => (layOut' field.type now cache).1)
        fields draft field now ∧ need field.type now n)
      (fun _ => True) (layOutFields layOut fields draft) (layOutFields layOut' fields draft) := by
  unfold layOutFields
  refine (Steps.foldlM
    (fun rest (now : Draft) => now.slots ≤ maxSlots ∧ ∀ field ∈ rest, field ∈ fields)
    (fun field rest now ⟨room, listed⟩ => ?_)
    ⟨room, fun _ member => member⟩).mono fun _ _ => trivial
  refine ((inside field (listed field List.mem_cons_self) now room).ensuring
    (lays field.type now room) sound).mono fun next ⟨_, shape, _, grown⟩ => ⟨grown.slots_le, ?_⟩
  exact fun other later => listed other (List.mem_cons_of_mem _ later)

/-- An arm that is collected alike fits into words. -/
theorem Arm.Collected.small {arm : Arm} (here : arm.Collected .bits64)
    (there : arm.Collected .unbounded) : arm.Small where
  fits := here.required_eq ▸ here.fits
  counts := fun a => (here.counts_eq a).trans (there.counts_eq a).symm

/-- What was put into an empty arm. -/
theorem Draft.Grows.collected {w : Width} {after : Draft} {parts : List Part}
    (grown : Grows w draft after parts) (empty : draft.container = .arm []) :
    (∀ item ∈ after.container.items, item.Whole) ∧
      exactSize after.container.items = after.bytes := by
  obtain ⟨items, put, realizes⟩ := grown.items
  rw [empty] at put
  rw [Draft.bytes, putAll_arm put, List.append_nil, Container.items, List.reverse_reverse]
  exact ⟨fun item member => (realizes.sound item member).whole,
    (exactSize_perm (List.reverse_perm items)).symm⟩

theorem putAll_body {w : Width} {items : List Item} {zones : PerClass Zone} {last : Container}
    (put : PutAll w items (.body zones) last) : last = .body last.zones := by
  induction items generalizing zones with
  | nil =>
    cases put
    rfl
  | cons item rest ih =>
    unfold PutAll at put
    rw [List.foldlM_cons] at put
    obtain ⟨next, first, put⟩ := Option.bind_eq_some_iff.mp put
    obtain ⟨zone, _, rfl⟩ := Option.map_eq_some_iff.mp first
    exact ih put

/-- What is put into an empty body, and how many bytes it has. -/
theorem Draft.Grows.body {w : Width} {draft after : Draft} {parts : List Part}
    (grown : Grows w draft after parts) (empty : draft.container = .emptyBody) :
    (∀ a, a.bytes ∣ (after.container.zones.get a).size) ∧
      (Container.body after.container.zones).bytes = after.bytes := by
  obtain ⟨items, put, realizes⟩ := grown.items
  rw [empty] at put
  refine ⟨fun a => ((realizes.body put).2 a).1, ?_⟩
  rw [Draft.bytes, ← putAll_body put]

/-- The arms of a variant need what each needs when it is its turn. -/
theorem steps_collectArms (need : TypeId → Draft → Nat → Prop)
    (lays : Lays schema .bits64 layOut) (sound : cache.Sound schema .bits64)
    (wholes : ∀ id draft n, Draft.Holding (layOut' id draft cache).1 n → need id draft n)
    (span : Span) (ids : List TypeId) (index : Nat) (collected : List Arm) (draft : Draft)
    (room : draft.slots ≤ maxSlots) (empty : draft.container = .arm [])
    (inside : ∀ id ∈ ids, ∀ draft : Draft, draft.slots ≤ maxSlots →
      Steps cache (need id draft) (fun _ => True) (layOut id draft) (layOut' id draft))
    (small : ∀ arm ∈ collected, arm.Small) :
    Steps cache (fun n => ∃ id now, Turn (fun now id => (layOut' id now cache).1.map
        fun next => { next with container := .arm [] }) ids draft id now ∧ need id now n)
      (fun r => ∀ arm ∈ r.1, arm.Small) (collectArms .bits64 span layOut index collected ids draft)
      (collectArms .unbounded span layOut' index collected ids draft) := by
  induction ids generalizing index collected draft with
  | nil => exact Steps.pure fun arm member => small arm (List.mem_reverse.mp member)
  | cons id rest ih =>
    unfold collectArms
    refine (((inside id List.mem_cons_self draft room).ensuring (lays id draft room) sound).allow
      fun n need => ⟨id, draft, .here, need⟩).bind ?_
    rintro next ⟨_, shape, _, grown⟩ ran
    obtain ⟨whole, size⟩ := grown.collected empty
    dsimp only [Draft.exchange]
    obtain ⟨arm, there, here | ⟨none, large⟩⟩ :=
      Arm.of?_inWords index fun item member => (whole item member).size_dvd
    · rw [here, there]
      have made := (Arm.collected_of? whole here).1.small (Arm.collected_of? whole there).1
      refine (ih (index + 1) (arm :: collected) { next with container := .arm [] } grown.slots_le
        rfl (fun other later => inside other (List.mem_cons_of_mem _ later)) ?_).allow ?_
      · intro other member
        obtain rfl | earlier := List.mem_cons.mp member
        · exact made
        · exact small other earlier
      · rintro n ⟨other, now, turn, need⟩
        exact ⟨other, now, .later (by rw [ran]; rfl) turn, need⟩
    · rw [none]
      have need := wholes id draft _ ⟨next, congrArg Prod.fst ran, rfl⟩
      exact .inl ⟨_, _, rfl, LayoutError.overflows_overflow span, ⟨id, draft, .here, need⟩,
        size ▸ large⟩

/-- A variant needs what its tag and its arms need, their storage, and room for it. -/
theorem steps_layOutVariant (need : TypeId → Draft → Nat → Prop) {more : Nat → Prop}
    (lays : Lays schema .bits64 layOut) (sound : cache.Sound schema .bits64)
    (wholes : ∀ id draft n, Draft.Holding (layOut' id draft cache).1 n → need id draft n)
    (arms : List TypeId)
    (inside : ∀ id ∈ arms, ∀ draft : Draft, draft.slots ≤ maxSlots →
      Steps cache (need id draft) (fun _ => True) (layOut id draft) (layOut' id draft))
    (tag : ∀ n, Draft.Holding (putTag .unbounded span arms draft) n → more n)
    (arm : ∀ tagged id now n, putTag .unbounded span arms draft = .ok tagged →
      Turn (fun now id => (layOut' id now cache).1.map
        fun next => { next with container := .arm [] }) arms { tagged with container := .arm [] }
        id now → need id now n → more n)
    (storage : ∀ tagged collected next r, putTag .unbounded span arms draft = .ok tagged →
      (collectArms .unbounded span layOut' 0 [] arms { tagged with container := .arm [] }
        cache).1 = .ok (collected, next) →
      Resolution.ofArms .unbounded options.maxSearchBytes collected = .ok r →
        more r.layout.total)
    (whole : ∀ n, Draft.Holding
      (layOutVariant .unbounded options span layOut' arms draft cache).1 n → more n) :
    Steps cache more (fun _ => True) (layOutVariant .bits64 options span layOut arms draft)
      (layOutVariant .unbounded options span layOut' arms draft) := by
  unfold layOutVariant at whole ⊢
  dsimp only [Draft.exchange] at whole ⊢
  have tags :=
    Draft.matches_putLeaf draft span (.ofSize (tagSize arms.length)) (tagSize arms.length)
  refine ((Steps.lift tags).allow tag).bind ?_
  intro tagged done tagging
  have tagged_eq : putTag .unbounded span arms draft = .ok tagged := congrArg Prod.fst tagging
  have grown := (ensures_putTag arms.length).of_ok done
  have none : Collects .bits64 { tagged with container := .arm [] }
    { tagged with container := .arm [] } [] (List.reverse []) := collects_nil grown.slots_le rfl
  have arms_ := steps_collectArms need lays sound wholes span arms 0 []
    { tagged with container := .arm [] } grown.slots_le rfl inside nofun
  refine ((arms_.ensuring (keeps_collectArms lays arms none) sound).allow
    fun n ⟨id, now, turn, need⟩ => arm tagged id now n tagged_eq turn need).bind ?_
  intro ⟨collected, filled⟩ ⟨small, shapes, related, collects⟩ collecting
  dsimp only at collects small ⊢
  rw [List.nil_append] at collects
  refine ((Steps.lift ((Resolution.ofArms_inWords options.maxSearchBytes small).matches_located
    span)).allow ?_).bind fun r resolved resolving => ?_
  · rintro _ ⟨r, resolved, rfl⟩
    exact storage tagged collected filled r tagged_eq (congrArg Prod.fst collecting) resolved
  have stored := (ensures_resolution .bits64 options.maxSearchBytes collected).of_ok resolved
  have perm : ((byRequirement collected).flatMap (·.pending)).Perm
      (collected.flatMap (·.pending)) := (byRequirement_perm collected).flatMap_right _
  have realizes := collects.realizes.perm perm
  have within : ∀ arm ∈ byRequirement collected, ∀ item ∈ arm.pending,
      Contained item.size item.leaves := by
    intro arm listed item member leaf inside
    have sound := realizes.sound item (List.mem_flatMap.mpr ⟨arm, listed, member⟩)
    exact (sound.arranged.lies leaf inside).offset_le
  refine (Steps.lift (Draft.matches_putVariant (Draft.zones_exact stored within)
    (Draft.contained_of_realizes (realizes.storage stored collects.divided)))).allow
      fun n holding => whole n ?_
  refine Draft.Holding.after (a := tagged) ?_ tagging
  refine Draft.Holding.after (a := (collected, filled)) ?_ collecting
  exact Draft.Holding.after (a := r) holding resolving

/-- A named type needs what its struct needs, and room for a copy of it. -/
theorem steps_layOutNamed {more : Nat → Prop} {name : String} (finds : Finds schema .bits64 struct)
    (sound : cache.Sound schema .bits64)
    (found : ∀ span, Steps cache (inner name) (fun _ => True) (struct name span)
      (struct' name span)) (copied : ∀ n, inner name n → more n)
    (whole : ∀ n, Draft.Holding
      (layOutNamed (exactSetting schema options) span struct' name draft cache).1 n → more n) :
    Steps cache more (fun _ => True)
      (layOutNamed (wordSetting schema options) span struct name draft)
      (layOutNamed (exactSetting schema options) span struct' name draft) := by
  obtain ⟨run, step⟩ := schema.exists_nameStep name
  rw [step.layOutNamed_eq rfl] at whole
  rw [step.layOutNamed_eq rfl, step.layOutNamed_eq rfl]
  cases step with
  | unknown | badEnum => exact Steps.throw nofun
  | enum =>
    exact ((Steps.lift (Draft.matches_putLeaf draft span _ _)).mono fun _ _ => trivial).allow whole
  | struct =>
    refine (((found span).ensuring (finds name span) sound).allow copied).bind ?_
    intro t ⟨_, known, _⟩ ran
    split
    · rename_i fixed
      obtain ⟨shape, _, realizes⟩ := known.shape
      refine (Steps.lift (Draft.matches_embed realizes)).allow fun n holding => whole n ?_
      refine Draft.Holding.after (a := t) ?_ ran
      rw [if_pos fixed]
      exact holding
    · exact Steps.throw nofun

/-! ## All types -/

theorem Schema.Refuses.not_overflows {schema : Schema} {id : TypeId} {e : LayoutError}
    (refuses : schema.Refuses id e) : ¬e.Overflows := by
  cases refuses <;> exact nofun

/-- The types that a type is made of. -/
def TypeForm.parts : TypeForm → List TypeId
  | .array element _ => [element]
  | form => form.inner

theorem TypeForm.mem_parts {form : TypeForm} {part : TypeId} (member : part ∈ form.inner) :
    part ∈ form.parts := by
  cases form with
  | array element length =>
    cases length with
    | fixed => exact member
    | dynamic => exact absurd member List.not_mem_nil
  | _ => exact member

/-- Types are made of earlier types, and the fields of structs have types. -/
structure Schema.Ordered (schema : Schema) : Prop where
  earlier : ∀ id form span, schema.type? id = some ⟨form, span⟩ →
    ∀ part ∈ form.parts, part.raw < id.raw
  known : ∀ name fields, schema.structFields? name = some fields →
    ∀ field ∈ fields, ∃ node, schema.type? field.type = some node

theorem Schema.ordered_iff (schema : Schema) : schema.Ordered ↔
    (∀ raw : Fin schema.types.items.size, ∀ part ∈ schema.types.items[raw].form.parts,
      part.raw < raw) ∧
    ∀ name ∈ schema.names, ∀ fields ∈ schema.structFields? name, ∀ field ∈ fields,
      (schema.type? field.type).isSome := by
  constructor
  · rintro ⟨earlier, known⟩
    refine ⟨fun raw part member => ?_, fun name _ fields declared field member => ?_⟩
    · exact earlier ⟨raw⟩ _ _ (Array.getElem?_eq_getElem raw.isLt) part member
    · exact Option.isSome_iff_exists.mpr (known name fields declared field member)
  · rintro ⟨earlier, known⟩
    refine ⟨fun id form span node part member => ?_, fun name fields declared field member => ?_⟩
    · obtain ⟨inside, here⟩ := Array.getElem?_eq_some_iff.mp node
      refine earlier ⟨id.raw, inside⟩ part ?_
      show part ∈ schema.types.items[id.raw].form.parts
      rw [here]
      exact member
    · exact Option.isSome_iff_exists.mp
        (known name (Schema.IsStruct.mem_names ⟨fields, declared⟩) fields declared field member)

instance (schema : Schema) : Decidable schema.Ordered :=
  decidable_of_iff' _ schema.ordered_iff

/-- Types can be nested deeper than there are types. -/
theorem Setting.raw_lt_maxDepth {setting : Setting} {id : TypeId} {node : TypeNode}
    (known : setting.schema.type? id = some node) : id.raw < setting.maxDepth := by
  have inside : id.raw < setting.schema.types.items.size := (Array.getElem?_eq_some_iff.mp known).1
  exact Nat.lt_of_lt_of_le inside (Nat.le_mul_of_pos_right _ (Nat.succ_pos _))

/-- Laying out a type in words only overflows for what the type needs. -/
theorem steps_layOutType (ordered : schema.Ordered) (finds : Finds schema .bits64 struct)
    (sound : cache.Sound schema .bits64)
    (found : ∀ name span, Steps cache (inner name) (fun _ => True) (struct name span)
      (struct' name span)) {depth : Nat} {id : TypeId} (draft : Draft)
    (room : draft.slots ≤ maxSlots) (deep : id.raw < depth) :
    Steps cache (TypeNeeds schema options struct' cache inner depth id draft) (fun _ => True)
      (layOutType (wordSetting schema options) struct depth id draft)
      (layOutType (exactSetting schema options) struct' depth id draft) := by
  induction depth generalizing id draft with
  | zero => exact absurd deep (Nat.not_lt_zero _)
  | succ depth ih =>
    have lays : Lays schema .bits64 (layOutType (wordSetting schema options) struct depth) :=
      @keeps_layOutType (wordSetting schema options) struct finds depth
    have inside {form : TypeForm} {span : Span} (node : schema.type? id = some ⟨form, span⟩)
        (part : TypeId) (member : part ∈ form.parts) (draft : Draft)
        (room : draft.slots ≤ maxSlots) :
        Steps cache (TypeNeeds schema options struct' cache inner depth part draft)
          (fun _ => True) (layOutType (wordSetting schema options) struct depth part draft)
          (layOutType (exactSetting schema options) struct' depth part draft) := by
      have earlier := ordered.earlier id form span node part member
      exact ih draft room (by omega)
    obtain ⟨run, step⟩ := schema.exists_typeStep id
    -- what the whole run makes, in whichever step
    have whole (n : Nat) (holding : Draft.Holding (run (exactSetting schema options) struct'
        (layOutType (exactSetting schema options) struct' depth) draft cache).1 n) :
        TypeNeeds schema options struct' cache inner (depth + 1) id draft n := by
      apply TypeNeeds.whole
      rw [layOutType_succ, step.layOutForm_eq rfl]
      exact holding
    rw [layOutType_succ, layOutType_succ, step.layOutForm_eq rfl, step.layOutForm_eq rfl]
    cases step with
    | refused refuses => exact Steps.throw refuses.not_overflows
    | primitive | string =>
      exact ((Steps.lift (Draft.matches_putLeaf draft _ _ _)).mono fun _ _ => trivial).allow whole
    | @array element length span node pos =>
      refine (steps_layOutArray lays sound pos room
        (inside node element List.mem_cons_self _ room)).allow fun n need => ?_
      obtain need | holding := need
      · exact .element node need
      · exact whole n holding
    | @variant arms span node =>
      exact steps_layOutVariant (TypeNeeds schema options struct' cache inner depth) lays sound
        (fun _ _ _ => .whole) arms (inside node) (fun _ => .tag node)
        (fun _ _ _ _ => .arm node) (fun _ _ _ _ => .storage node) whole
    | @record fields span node =>
      refine (steps_layOutFields (TypeNeeds schema options struct' cache inner depth) lays sound
        fields room fun field member =>
          inside node field.type (List.mem_map_of_mem member)).allow ?_
      exact fun n ⟨field, now, turn, need⟩ => .field node turn need
    | @named name span node =>
      exact steps_layOutNamed finds sound (found name) (fun n need => .named node need) whole

/-- A template that is made anew is sound. -/
theorem finds_freshTemplate (setting : Setting) (depth : Nat) :
    Finds setting.schema setting.width (freshTemplate setting depth) := by
  induction depth with
  | zero =>
    intro name span
    unfold freshTemplate
    exact (keeps_structBody name span).bind fun _ _ => Keeps.throw rfl
  | succ depth ih =>
    intro name span
    unfold freshTemplate
    apply (keeps_structBody name span).bind
    rintro ⟨fields, declared⟩ known
    exact (keeps_layOutStruct ih known declared).whileUnderway name (fun _ good => good)
      (fun _ good => good)

end PackedLayout
