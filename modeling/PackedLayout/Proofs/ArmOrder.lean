import Mathlib.Algebra.BigOperators.Group.List.Basic
import PackedLayout.Proofs.Collecting
import PackedLayout.Proofs.Merging
import PackedLayout.Proofs.Sufficiency

/-!
# Variants with their arms in another order

The order of the arms of a variant decides under which numbers their slots and packs come, and
nothing else:

- `Container.putAll?_strip`: whether items have room depends on their sizes alone;
- `LaidInOrder`: a variant whose arms are lone arms one after the other, each with its leaves at
  places of its own;
- `layOutVariant_perm`: a variant is laid out with its arms in any order or in none, and alike.
-/

namespace PackedLayout

variable {w : Width} {limit : Nat} {span : Span} {zones zones' : PerClass Zone} {draft : Draft}

/-! ## Room for items -/

/-- An item without its leaves. -/
def Item.strip (item : Item) : Item := { item with leaves := [] }

def Zone.strip (zone : Zone) : Zone := { zone with leaves := [] }

/-- What a container holds, but for the leaves. -/
def Container.strip : Container → Container
  | body zones => .body (zones.map Zone.strip)
  | arm items => .arm (items.map Item.strip)

theorem Zone.push?_strip (zone : Zone) (item : Item) :
    zone.strip.push? w item.strip = (zone.push? w item).map Zone.strip := by
  show (w.checked (zone.size + item.size)).map _ = Option.map _ (Option.map _ _)
  rw [Option.map_map]
  rfl

theorem PerClass.map_set {α β : Type} (f : α → β) (p : PerClass α) (a : Alignment) (x : α) :
    (p.set a x).map f = (p.map f).set a (f x) := by
  cases a <;> rfl

namespace Container

theorem put?_strip (container : Container) (item : Item) :
    container.strip.put? w item.strip = (container.put? w item).map strip := by
  cases container with
  | arm items => rfl
  | body zones =>
    show (((zones.map Zone.strip).get item.align).push? w item.strip).map _ = Option.map _ _
    rw [PerClass.get_map, Zone.push?_strip, put?, Option.map_map, Option.map_map]
    congr 1
    funext zone
    exact congrArg body (PerClass.map_set Zone.strip zones item.align zone).symm

/-- Items that are put in leave behind what their sizes do. -/
theorem putAll?_strip (container : Container) (items : List Item) :
    container.strip.putAll? w (items.map Item.strip) = (container.putAll? w items).map strip := by
  induction items generalizing container with
  | nil => rfl
  | cons item rest ih =>
    show (container.strip.put? w item.strip).bind _ = ((container.put? w item).bind _).map strip
    rw [put?_strip, Option.bind_map, Option.map_bind]
    congr 1
    funext next
    exact ih next

end Container

theorem zoneItems_strip (zones : PerClass Zone) (classes : List Alignment) :
    zoneItems (zones.map Zone.strip) classes = (zoneItems zones classes).map Item.strip := by
  unfold zoneItems
  rw [List.map_map]
  simp only [PerClass.get_map]
  rfl

namespace Draft

variable {inner inner' after : Draft}

/-- Zones of the same sizes have room in the same container. -/
theorem exists_putZones_of_strip (same : zones'.map Zone.strip = zones.map Zone.strip)
    (container : inner'.container = inner.container)
    (put : inner.putZones w span zones = .ok after) :
    ∃ after', inner'.putZones w span zones' = .ok after' := by
  have items : (zoneItems zones' Alignment.descending).map Item.strip =
      (zoneItems zones Alignment.descending).map Item.strip := by
    rw [← zoneItems_strip, ← zoneItems_strip, same]
  have into := @toOption_putZones w span zones inner
  have into' := @toOption_putZones w span zones' inner'
  have sizes := Container.putAll?_strip (w := w) inner.container
    (zoneItems zones' Alignment.descending)
  rw [items, Container.putAll?_strip] at sizes
  rw [put] at into
  obtain ⟨last, filled, _⟩ := Option.map_eq_some_iff.mp into.symm
  rw [filled] at sizes
  obtain ⟨last', filled', _⟩ := Option.map_eq_some_iff.mp sizes.symm
  rw [container, filled'] at into'
  cases done : inner'.putZones w span zones' with
  | ok after' => exact ⟨after', rfl⟩
  | error e =>
    rw [done] at into'
    contradiction

/-- A resolution with the same report and zones of the same sizes has room as well. -/
theorem exists_putVariant_of_shuffled {options : Options} {tag arms : Nat} {r r' : Resolution}
    (alike : r.Shuffled r') (container : inner'.container = inner.container)
    (put : inner.putVariant w options span tag arms r = .ok after) :
    ∃ after', inner'.putVariant w options span tag arms r' = .ok after' := by
  have sizes : (r'.storage.zones w).map Zone.strip = (r.storage.zones w).map Zone.strip := by
    apply PerClass.ext_get
    intro a
    simp only [PerClass.get_map, Storage.zones, PerClass.get_ofFn]
    exact congrArg (Zone.mk · []) (alike.storage.size_zone a)
  unfold putVariant at put ⊢
  rw [alike.degradations]
  split at put
  · contradiction
  · refine exists_putZones_of_strip sizes ?_ put
    exact container

end Draft

/-! ## Leaves of the arms -/

variable {ids ids' : List TypeId} {lone : TypeId → Lone} {own : TypeId → Alignment → List Leaf}
  {index slots packs : Nat}

/-- Arms that are laid out one after the other, and what they resolve to: each arm is the lone arm
of its type, and its leaves in a zone are its own ones, both under numbers that come after those of
the arms before it. -/
structure LaidInOrder (w : Width) (lone : TypeId → Lone) (own : TypeId → Alignment → List Leaf)
    (slots packs : Nat) (ids : List TypeId) (arms : List Arm) (r : Resolution) : Prop where
  arms_eq : arms = numbered lone 0 slots packs ids
  leaves : ∀ a, (r.storage.zone w a).leaves.Perm
    (inOrder (fun id => (lone id).given) (fun f id => (own id a).map (Leaf.rename f)) slots packs
      ids).flatten

/-- What every lone arm places in a zone, given the room in the zones. -/
def ownLeaves (w : Width) (limit : Nat) (lone : TypeId → Lone) (s : Storage) (id : TypeId)
    (a : Alignment) : List Leaf :=
  (lone id).arm.leavesIn w limit a s.rooms

/-- A zone holds the own leaves of every arm. -/
theorem laidInOrder_of_place {arms : List Arm} {r : Resolution} {target : Boundaries}
    (arms_eq : arms = numbered lone 0 slots packs ids)
    (placed : Storage.place w limit target (byRequirement arms) = .ok r.storage) :
    LaidInOrder w lone (ownLeaves w limit lone r.storage) slots packs ids arms r where
  arms_eq := arms_eq
  leaves := by
    intro a
    have each := @map_numbered ids lone 0 slots packs _ (Arm.leavesIn w limit a r.storage.rooms)
      fun arm index => Arm.leavesIn_reindex index r.storage.rooms arm
    simp only [Arm.leavesIn_rename] at each
    rw [Storage.leaves_zone placed, List.flatMap_def]
    apply ((byRequirement_perm arms).map _).flatten.trans
    rw [arms_eq, each]
    rfl

theorem exists_mem_inOrder {α β : Type} (given : β → Nat × Nat) (own : Renaming → β → α)
    (slots packs : Nat) {xs : List β} {x : β} (member : x ∈ xs) :
    ∃ slots' packs', own (.shift slots' packs') x ∈ inOrder given own slots packs xs := by
  induction xs generalizing slots packs with
  | nil => exact absurd member List.not_mem_nil
  | cons y rest ih =>
    unfold inOrder
    obtain rfl | later := List.mem_cons.mp member
    · exact ⟨slots, packs, List.mem_cons_self⟩
    · obtain ⟨slots', packs', listed⟩ := ih (slots + (given y).1) (packs + (given y).2) later
      exact ⟨slots', packs', List.mem_cons_of_mem _ listed⟩

/-- The arm of a type is listed under some numbers. -/
theorem exists_mem_numbered (lone : TypeId → Lone) (index slots packs : Nat) {id : TypeId}
    (member : id ∈ ids) :
    ∃ slots' packs' position, { (lone id).arm.rename (.shift slots' packs') with
      index := position } ∈ numbered lone index slots packs ids := by
  obtain ⟨slots', packs', listed⟩ := exists_mem_inOrder (fun id => (lone id).given)
    (fun f id => (lone id).arm.rename f) slots packs member
  rw [← List.zipIdx_map_fst index (inOrder _ _ _ _ _)] at listed
  obtain ⟨p, counted, same⟩ := List.mem_map.mp listed
  refine ⟨slots', packs', p.2, List.mem_map.mpr ⟨p, counted, ?_⟩⟩
  rw [← same]

/-- Every leaf of a lone arm is among its own leaves in one zone. -/
theorem ownLeaves_perm {arms : List Arm} {s : Storage} {target : Boundaries}
    (placed : Storage.place w limit target (byRequirement arms) = .ok s)
    (arms_eq : arms = numbered lone 0 slots packs ids) {id : TypeId} (member : id ∈ ids) :
    ((Alignment.descending.flatMap (ownLeaves w limit lone s id)).map (·.slot)).Perm
      (((lone id).arm.pending.flatMap (·.leaves)).map (·.slot)) := by
  obtain ⟨slots', packs', position, listed⟩ := exists_mem_numbered lone 0 slots packs member
  rw [← arms_eq] at listed
  have each := Arm.slots_leavesIn placed ((byRequirement_perm arms).mem_iff.mpr listed)
  have moved (leaves : List Leaf) : (leaves.map (Leaf.rename (.shift slots' packs'))).map (·.slot) =
      (leaves.map (·.slot)).map (· + slots') := by
    rw [List.map_map, List.map_map]
    rfl
  have pending : Arm.pending { (lone id).arm.rename (.shift slots' packs') with
      index := position } = (lone id).arm.pending.map (Item.rename (.shift slots' packs')) :=
    Arm.pending_rename (lone id).arm
  have leaves : ((lone id).arm.pending.map (Item.rename (.shift slots' packs'))).flatMap
      (·.leaves) =
        ((lone id).arm.pending.flatMap (·.leaves)).map (Leaf.rename (.shift slots' packs')) := by
    rw [List.flatMap_map, List.map_flatMap]
    rfl
  simp only [Arm.leavesIn_reindex, Arm.leavesIn_rename] at each
  rw [← List.map_flatMap, moved] at each
  rw [pending, leaves, moved] at each
  exact (List.map_perm_map_iff (add_left_injective slots')).mp each

/-! ## Variants -/

section VariantRun

variable {options : Options} {layOut : TypeLayout} {cache : Cache}

/-- What is recorded of a variant, and what is reported about it. -/
theorem VariantRun.reports {tagged inner after : Draft} {arms : List Arm} {r : Resolution}
    (run : VariantRun w options span layOut ids draft cache tagged inner arms r after) :
    after.variants = inner.variants.push
      ⟨draft.slots, ids.length, r.target, r.layout, r.required, r.isPerfect, span⟩ ∧
    after.warnings = inner.warnings ++ r.degradations.map fun d => (⟨d, span⟩ : Warning) := by
  have same := (Draft.of_putVariant run.put).2.1
  constructor <;> rw [same]

end VariantRun

/-! ## Engines -/

instance : Inhabited Lone := ⟨.bare, ⟨0, .empty, 0, []⟩⟩

section Engine

variable {setting : Setting} {structs depth : Nat} {cache : Cache} {name : String}

/-- An engine that may lay out some types: its templates are certified, the structs underway lead to
all that the types mention, and `structs` more may be underway. -/
structure Cache.ReadyFor (setting : Setting) (structs : Nat) (ids : List TypeId) (cache : Cache) :
    Prop where
  certified : cache.Certified setting
  room : Trail setting.schema structs cache.underway
  leads : ∀ id ∈ ids, ∀ name, Mentions setting.schema id name → setting.schema.IsStruct name →
    LeadsTo setting.schema cache.underway name

namespace Cache.ReadyFor

/-- With no struct underway, every type may be laid out. -/
theorem empty (setting : Setting) (ids : List TypeId) :
    Cache.empty.ReadyFor setting setting.schema.declarations.length ids where
  certified := Cache.certified_empty setting
  room := trail_nil setting.schema
  leads := fun _ _ _ _ _ _ absent => absurd absent List.not_mem_nil

/-- With a struct underway, what its fields mention may be laid out. -/
theorem enter (certified : cache.Certified setting)
    (room : Trail setting.schema (structs + 1) cache.underway)
    (leads : LeadsTo setting.schema cache.underway name) (new : name ∉ cache.underway)
    (missing : cache.template? name = none) (isStruct : setting.schema.IsStruct name)
    (refers : ∀ id ∈ ids, ∀ other, Mentions setting.schema id other →
      setting.schema.IsStruct other → Refers setting.schema name other) :
    (cache.enter name).ReadyFor setting structs ids where
  certified := certified.enter missing
  room := room.enter new isStruct
  leads := fun id member other mentions isStruct =>
    leads.enter (refers id member other mentions isStruct)

theorem perm (ready : cache.ReadyFor setting structs ids) (perm : ids.Perm ids') :
    cache.ReadyFor setting structs ids' where
  certified := ready.certified
  room := ready.room
  leads := fun id member => ready.leads id (perm.mem_iff.mpr member)

end Cache.ReadyFor

/-- The arms that an engine collects are collected with structs that are made anew, and the other
way around. -/
theorem collectArms_anew (ready : cache.ReadyFor setting structs ids) (draft : Draft)
    (r : List Arm × Draft) :
    (collectArms w span (layOutType setting (template setting structs) depth) 0 [] ids draft
        cache).1 = .ok r ↔
      (collectArms w span (layOutType setting (anew setting) depth) 0 [] ids draft .empty).1 =
        .ok r := by
  constructor
  · intro walked
    have agree := @agree_collectArms span _ _ _ _ w ids 0 [] draft fun id member draft =>
      agree_layOutType depth draft fun name mentions isStruct span =>
        agree_template_anew span ready.room (ready.leads id member name mentions isStruct)
    exact ((agree.alike ⟨ready.certified, rfl⟩).ok walked).1
  · intro walked
    have agree := @agree_collectArms span _ _ _ _ w ids 0 [] draft fun id member draft =>
      agree_layOutType depth draft fun name mentions isStruct span =>
        agree_anew_template span ready.room (ready.leads id member name mentions isStruct)
    exact ((agree.alike ⟨ready.certified, rfl⟩).ok walked).1

/-- Where arms are collected, they are the lone arms in order, and they are collected in any other
order as well. -/
theorem exists_collectArms (draft : Draft) (ready : cache.ReadyFor setting structs ids)
    (perm : ids.Perm ids')
    (room : draft.slots ≤ maxSlots) (empty : draft.container = .arm []) {arms : List Arm}
    {inner : Draft} (walked : (collectArms setting.width span
      (layOutType setting (template setting structs) depth) 0 [] ids draft cache).1 =
        .ok (arms, inner)) :
    ∃ (lone : TypeId → Lone) (inner' : Draft),
      (∀ id ∈ ids, (lone id).Of setting.width (layOutType setting (anew setting) depth) id) ∧
      arms = numbered lone 0 draft.slots draft.packs.size ids ∧
      (collectArms setting.width span (layOutType setting (template setting structs) depth) 0 []
        ids' draft cache).1 = .ok (numbered lone 0 draft.slots draft.packs.size ids', inner') := by
  have framed := framed_layOutType setting (anew setting) depth
  have steady := @layOutType_anew setting depth
  have collected := (collectArms_anew ready draft (arms, inner)).mp walked
  have alone := exists_lone framed steady room empty collected
  choose! lone own using alone
  obtain ⟨fits, same⟩ := (collectArms_eq_ok framed steady own room empty).mp collected
  have own' : ∀ id ∈ ids',
      (lone id).Of setting.width (layOutType setting (anew setting) depth) id :=
    fun id member => own id (perm.mem_iff.mpr member)
  rw [(perm.map fun id => (lone id).part.slots).sum_eq] at fits
  have collected' := (@collectArms_eq_ok _ span _ _ _ .empty _ 0 framed steady own' room empty []
    (_, _)).mpr ⟨fits, rfl⟩
  exact ⟨lone, _, own, congrArg Prod.fst same,
    (collectArms_anew (ready.perm perm) draft _).mpr collected'⟩

/-- What a resolution of arms in another order places where. -/
theorem laidInOrder_both {arms arms' : List Arm} {r r' : Resolution}
    (arms_eq : arms = numbered lone 0 slots packs ids)
    (arms_eq' : arms' = numbered lone 0 slots packs ids')
    (resolved : Resolution.ofArms w limit arms = .ok r)
    (resolved' : Resolution.ofArms w limit arms' = .ok r') (alike : r.Shuffled r') :
    ∃ own, LaidInOrder w lone own slots packs ids arms r ∧
      LaidInOrder w lone own slots packs ids' arms' r' ∧
      ∀ id ∈ ids, ((Alignment.descending.flatMap (own id)).map (·.slot)).Perm
        (((lone id).arm.pending.flatMap (·.leaves)).map (·.slot)) := by
  have placed := (Resolution.exists_place resolved).1
  have placed' := (Resolution.exists_place resolved').1
  have same : ownLeaves w limit lone r'.storage = ownLeaves w limit lone r.storage := by
    unfold ownLeaves
    rw [alike.storage.rooms]
  refine ⟨ownLeaves w limit lone r.storage, laidInOrder_of_place arms_eq placed, ?_, ?_⟩
  · rw [← same]
    exact laidInOrder_of_place arms_eq' placed'
  · intro id member
    exact ownLeaves_perm placed arms_eq member

/-- A variant that is laid out is laid out with its arms in any other order as well. The plan, the
storage, the size of the largest arm, the report and the sizes of the zones stay as they are. Every
arm is laid out on its own, with its leaves at places of its own in the zones, and only the numbers
of slots and packs depend on the arms before it. -/
theorem layOutVariant_perm (ready : cache.ReadyFor setting structs ids) (perm : ids.Perm ids')
    {after : Draft}
    (laid : (layOutVariant setting.width setting.options span
      (layOutType setting (template setting structs) depth) ids draft cache).1 = .ok after) :
    ∃ after' tagged inner inner' arms arms' r r' lone own,
      (layOutVariant setting.width setting.options span
        (layOutType setting (template setting structs) depth) ids' draft cache).1 = .ok after' ∧
      VariantRun setting.width setting.options span
        (layOutType setting (template setting structs) depth) ids draft cache tagged inner arms r
          after ∧
      VariantRun setting.width setting.options span
        (layOutType setting (template setting structs) depth) ids' draft cache tagged inner' arms'
          r' after' ∧
      (r'.target = r.target ∧ r'.layout = r.layout ∧ r'.required = r.required ∧
        r'.isPerfect = r.isPerfect ∧ r'.degradations = r.degradations ∧
        ∀ a, (r'.storage.zone setting.width a).size = (r.storage.zone setting.width a).size) ∧
      (∃ (record : VariantLayout) (report : List Warning),
        after.variants = inner.variants.push record ∧
        after'.variants = inner'.variants.push record ∧
        after.warnings = inner.warnings ++ report ∧
        after'.warnings = inner'.warnings ++ report) ∧
      (∀ id ∈ ids, (lone id).Of setting.width (layOutType setting (anew setting) depth) id ∧
        ((Alignment.descending.flatMap (own id)).map (·.slot)).Perm
          (((lone id).arm.pending.flatMap (·.leaves)).map (·.slot))) ∧
      LaidInOrder setting.width lone own tagged.slots tagged.packs.size ids arms r ∧
      LaidInOrder setting.width lone own tagged.slots tagged.packs.size ids' arms' r' := by
  obtain ⟨tagged, inner, arms, r, run⟩ := layOutVariant_eq_ok_iff.mp laid
  have room := ((ensures_putTag _).of_ok run.tag).slots_le
  obtain ⟨lone, inner', own, arms_eq, walked'⟩ :=
    exists_collectArms { tagged with container := .arm [] } ready perm room rfl run.walked
  have shuffled := shuffled_numbered perm lone 0 tagged.slots tagged.packs.size
  have resolved := run.resolved
  rw [arms_eq] at resolved
  obtain ⟨r', resolved', alike⟩ := Resolution.ofArms_shuffled shuffled resolved
  have put := run.put
  rw [perm.length_eq] at put
  have outer : ({ inner' with container := tagged.container } : Draft).container =
    ({ inner with container := tagged.container } : Draft).container := rfl
  obtain ⟨after', put'⟩ := Draft.exists_putVariant_of_shuffled alike outer put
  have tag := run.tag
  rw [perm.length_eq] at tag
  have run' : VariantRun setting.width setting.options span
      (layOutType setting (template setting structs) depth) ids' draft cache tagged inner'
        (numbered lone 0 tagged.slots tagged.packs.size ids') r' after' :=
    ⟨tag, walked', resolved', put'⟩
  obtain ⟨places, laidIn, laidIn', slots⟩ :=
    laidInOrder_both arms_eq rfl run.resolved resolved' alike
  have reports := run.reports
  have reports' := run'.reports
  rw [alike.target, alike.layout, alike.required, alike.isPerfect, alike.degradations,
    ← perm.length_eq] at reports'
  refine ⟨after', tagged, inner, inner', arms, _, r, r', lone, places,
    layOutVariant_eq_ok_iff.mpr ⟨_, _, _, _, run'⟩, run, run', ?_, ?_, ?_, laidIn, laidIn'⟩
  · exact ⟨alike.target, alike.layout, alike.required, alike.isPerfect, alike.degradations,
      fun a => alike.storage.size_zone a⟩
  · exact ⟨_, _, reports.1, reports'.1, reports.2, reports'.2⟩
  · intro id member
    exact ⟨own id member, slots id member⟩

/-- The larger arm first or last, the variant takes 12 bytes, 3 of them padding. -/
theorem layOutVariant_perm_parcels :
    ∃ (after after' inner inner' : Draft) (record : VariantLayout) (report : List Warning),
      (layOutVariant .bits64 parcels.options .dummy (layOutType parcels (template parcels 0) 2)
        [⟨0⟩, ⟨3⟩] .empty .empty).1 = .ok after ∧
      (layOutVariant .bits64 parcels.options .dummy (layOutType parcels (template parcels 0) 2)
        [⟨3⟩, ⟨0⟩] .empty .empty).1 = .ok after' ∧
      after.variants = inner.variants.push record ∧ after'.variants = inner'.variants.push record ∧
      after.warnings = inner.warnings ++ report ∧ after'.warnings = inner'.warnings ++ report ∧
      record = ⟨0, 2, ⟨⟨8, 12, 12, 12⟩⟩, ⟨⟨8, 12, 12, 12⟩⟩, 9, false, .dummy⟩ := by
  obtain ⟨after, laid, recorded⟩ := layOutVariant_parcels
  have ready : Cache.empty.ReadyFor parcels 0 [⟨0⟩, ⟨3⟩] := .empty parcels _
  obtain ⟨after', _, inner, inner', _, _, _, _, _, _, laid', _, _, _, reports, _⟩ :=
    layOutVariant_perm ready (.swap _ _ []) laid
  obtain ⟨record, report, variants, variants', warnings, warnings'⟩ := reports
  have same := congrArg Array.back? (variants.symm.trans recorded)
  rw [Array.back?_push] at same
  exact ⟨after, after', inner, inner', record, report, laid, laid', variants, variants', warnings,
    warnings', Option.some.inj same⟩

end Engine

end PackedLayout
