import Mathlib.Data.List.Chain
import PackedLayout.Layout.Queries
import PackedLayout.Proofs.Derivations

/-!
# Packs inside of packs

A pack is as large as its elements together, and fits into one element of the pack around it:

- `Nested`: so it is for all packs of a table;
- `Snug`: the outermost packs around some leaves fit into a number of bytes;
- `Nested.adopted`: a new pack may become the parent of packs that fit into one of its elements;
- `Puts.fitting`, `Makes.fitting`: all packs are nested, whatever is put into a draft.
-/

namespace PackedLayout

variable {packs next : Array Pack} {pack : Pack} {leaves : List Leaf} {n m : Nat} {w : Width}
  {setting : Setting} {draft after : Draft} {t : Template}

/-! ## Tables of packs -/

/-- Every pack is as large as its elements together, and fits into one element of its parent. -/
structure Nested (packs : Array Pack) : Prop where
  size_eq : ∀ (i : Nat) pack, packs[i]? = some pack → pack.size = pack.elementSize * pack.length
  fits : ∀ (i : Nat) pack id, packs[i]? = some pack → pack.parent = some id →
    ∃ outer, packs[id.index]? = some outer ∧ pack.size ≤ outer.elementSize

/-- The packs of one table are in another at the same places, with the same sizes. -/
def SameSizes (packs next : Array Pack) : Prop :=
  ∀ (i : Nat) pack, packs[i]? = some pack →
    ∃ other, next[i]? = some other ∧ other.size = pack.size ∧ other.elementSize = pack.elementSize

theorem Extends.sameSizes (h : Extends packs next) : SameSizes packs next :=
  fun i pack known => ⟨pack, h i pack known, rfl, rfl⟩

/-- The outermost packs around some leaves fit into `n` bytes. -/
def Snug (packs : Array Pack) (n : Nat) (leaves : List Leaf) : Prop :=
  ∀ leaf ∈ leaves, ∀ id, leaf.packs.head? = some id →
    ∃ pack, packs[id.index]? = some pack ∧ pack.size ≤ n

theorem snug_nil (packs : Array Pack) (n : Nat) : Snug packs n [] := by simp [Snug]

namespace Snug

theorem mono (h : Snug packs n leaves) (le : n ≤ m) : Snug packs m leaves := by
  intro leaf member id outer
  obtain ⟨pack, known, fits⟩ := h leaf member id outer
  exact ⟨pack, known, Nat.le_trans fits le⟩

theorem carry (h : Snug packs n leaves) (same : SameSizes packs next) : Snug next n leaves := by
  intro leaf member id outer
  obtain ⟨pack, known, fits⟩ := h leaf member id outer
  obtain ⟨other, there, size, _⟩ := same id.index pack known
  exact ⟨other, there, size ▸ fits⟩

theorem append {others : List Leaf} (h : Snug packs n leaves) (h' : Snug packs n others) :
    Snug packs n (leaves ++ others) := by
  intro leaf member
  obtain here | there := List.mem_append.mp member
  · exact h leaf here
  · exact h' leaf there

/-- Leaves that are moved stay in their packs. -/
theorem moved (h : Snug packs n leaves) (w : Width) (distance : Nat) :
    Snug packs n (leaves.map (Leaf.moveBy w distance)) := by
  intro leaf member
  obtain ⟨inner, listed, rfl⟩ := List.mem_map.mp member
  exact h inner listed

end Snug

/-! ## A new pack -/

/-- A pack that is adopted keeps its sizes. -/
theorem sameSizes_adopted (packs : Array Pack) (pack : Pack) (leaves : List Leaf) :
    SameSizes packs (adopted packs pack leaves) := by
  intro i p known
  by_cases outer : ∃ leaf ∈ leaves, leaf.packs.head? = some ⟨i⟩
  · obtain ⟨leaf, member, head⟩ := outer
    exact ⟨_, adopted_of_outer member head known, rfl, rfl⟩
  · exact ⟨p, adopted_of_other known fun leaf member head => outer ⟨leaf, member, head⟩, rfl, rfl⟩

/-- A new pack is the last one of the table, where the packs around its leaves are in it. -/
theorem Snug.adopted_new (snug : Snug packs n leaves) :
    (adopted packs pack leaves)[packs.size]? = some pack := by
  apply adopted_new_of_head
  intro leaf member id outer
  obtain ⟨_, known, _⟩ := snug leaf member id outer
  exact (Array.getElem?_eq_some_iff.mp known).1

/-- A new pack may become the parent of packs that fit into one of its elements. -/
theorem Nested.adopted (h : Nested packs) (snug : Snug packs pack.elementSize leaves)
    (size : pack.size = pack.elementSize * pack.length) (root : pack.parent = none) :
    Nested (adopted packs pack leaves) := by
  have new := @Snug.adopted_new packs pack leaves _ snug
  -- a pack of the table is the new one, or one that was adopted, or it is as it was
  have cases (i : Nat) (q : Pack) (known : (PackedLayout.adopted packs pack leaves)[i]? = some q) :
      q = pack ∨ ∃ p, packs[i]? = some p ∧ (q = p ∨ q = { p with parent := some ⟨packs.size⟩ } ∧
        p.size ≤ pack.elementSize) := by
    obtain ⟨inside, _⟩ := Array.getElem?_eq_some_iff.mp known
    rw [size_adopted] at inside
    by_cases last : i = packs.size
    · rw [last, new] at known
      exact .inl (Option.some.inj known).symm
    · have there : i < packs.size := by omega
      have known' := Array.getElem?_eq_getElem there
      right
      refine ⟨packs[i], known', ?_⟩
      by_cases outer : ∃ leaf ∈ leaves, leaf.packs.head? = some ⟨i⟩
      · obtain ⟨leaf, member, head⟩ := outer
        obtain ⟨p, here, fits⟩ := snug leaf member ⟨i⟩ head
        obtain rfl := Option.some.inj (known'.symm.trans here)
        right
        exact ⟨Option.some.inj (known.symm.trans (adopted_of_outer member head known')), fits⟩
      · left
        exact Option.some.inj (known.symm.trans
          (adopted_of_other known' fun leaf member head => outer ⟨leaf, member, head⟩))
  constructor
  · intro i q known
    obtain rfl | ⟨p, here, rfl | ⟨rfl, _⟩⟩ := cases i q known
    · exact size
    · exact h.size_eq i q here
    · exact h.size_eq i p here
  · intro i q id known parent
    obtain rfl | ⟨p, here, rfl | ⟨rfl, fits⟩⟩ := cases i q known
    · rw [root] at parent
      contradiction
    · obtain ⟨outer, there, fits⟩ := h.fits i q id here parent
      obtain ⟨other, after, _, same⟩ := sameSizes_adopted packs pack leaves id.index outer there
      exact ⟨other, after, same ▸ fits⟩
    · cases parent
      exact ⟨pack, new, fits⟩

/-! ## Copies -/

theorem Nested.copied {before : Array Pack} (h : Nested before) (h' : Nested packs) :
    Nested (copied before packs) := by
  -- a pack of the table is one that was there, or one that was moved up
  have cases (i : Nat) (q : Pack) (known : (PackedLayout.copied before packs)[i]? = some q) :
      before[i]? = some q ∨
        ∃ (j : Nat) (p : Pack), packs[j]? = some p ∧ q = p.renumber before.size := by
    by_cases inside : i < before.size
    · left
      rwa [PackedLayout.copied, Array.getElem?_append_left inside] at known
    · right
      obtain ⟨j, rfl⟩ := Nat.exists_eq_add_of_le (Nat.not_lt.mp inside)
      rw [Nat.add_comm, getElem?_copied] at known
      obtain ⟨p, here, rfl⟩ := Option.map_eq_some_iff.mp known
      exact ⟨j, p, here, rfl⟩
  constructor
  · intro i q known
    obtain here | ⟨j, p, here, rfl⟩ := cases i q known
    · exact h.size_eq i q here
    · exact h'.size_eq j p here
  · intro i q id known parent
    obtain here | ⟨j, p, here, rfl⟩ := cases i q known
    · obtain ⟨outer, there, fits⟩ := h.fits i q id here parent
      exact ⟨outer, extends_append _ _ _ _ there, fits⟩
    · obtain ⟨id, own, rfl⟩ := Option.map_eq_some_iff.mp parent
      obtain ⟨outer, there, fits⟩ := h'.fits j p id here own
      refine ⟨outer.renumber before.size, ?_, fits⟩
      show (PackedLayout.copied before packs)[id.index + before.size]? = _
      rw [getElem?_copied, there]
      rfl

theorem Snug.copied (h : Snug packs n leaves) (before : Array Pack) (slots : Nat) :
    Snug (copied before packs) n (leaves.map (Leaf.renumber slots before.size)) := by
  intro leaf member id outer
  obtain ⟨inner, listed, rfl⟩ := List.mem_map.mp member
  change (inner.packs.map _).head? = _ at outer
  rw [List.head?_map] at outer
  obtain ⟨own, head, rfl⟩ := Option.map_eq_some_iff.mp outer
  obtain ⟨pack, known, fits⟩ := h inner listed own head
  refine ⟨pack.renumber before.size, ?_, fits⟩
  show (PackedLayout.copied before packs)[own.index + before.size]? = _
  rw [getElem?_copied, known]
  rfl

/-! ## Containers -/

/-- The packs in a container fit into its zones, or its items. -/
def Container.Roomy (packs : Array Pack) : Container → Prop
  | body zones => ∀ a, Snug packs (zones.get a).size (zones.get a).leaves
  | arm items => ∀ item ∈ items, Snug packs item.size item.leaves

namespace Container.Roomy

variable {c last : Container} {item : Item} {items : List Item}

theorem carry (h : c.Roomy packs) (same : SameSizes packs next) : c.Roomy next := by
  cases c with
  | body zones => exact fun a => (h a).carry same
  | arm items => exact fun item member => (h item member).carry same

theorem snug_zones (h : c.Roomy packs) (a : Alignment) :
    Snug packs (c.zones.get a).size (c.zones.get a).leaves := by
  cases c with
  | body zones => exact h a
  | arm items =>
    rw [Container.zones, PerClass.get_fill]
    exact snug_nil _ _

theorem snug_items (h : c.Roomy packs) (member : item ∈ c.items) :
    Snug packs item.size item.leaves := by
  cases c with
  | body zones => exact absurd member List.not_mem_nil
  | arm items => exact h item (List.mem_reverse.mp member)

theorem put? (h : c.Roomy packs) (snug : Snug packs item.size item.leaves)
    (put : c.put? w item = some last) : last.Roomy packs := by
  cases c with
  | arm items =>
    cases put
    exact List.forall_mem_cons.mpr ⟨snug, h⟩
  | body zones =>
    obtain ⟨zone, pushed, rfl⟩ := Option.map_eq_some_iff.mp put
    obtain ⟨size, checked, rfl⟩ := Option.map_eq_some_iff.mp pushed
    obtain ⟨_, rfl⟩ := Width.checked_eq_some.mp checked
    intro a
    rw [PerClass.get_set]
    by_cases here : item.align = a
    · rw [if_pos here]
      have old := (h item.align).mono (Nat.le_add_right _ item.size)
      exact ((snug.moved w _).mono (Nat.le_add_left _ _)).append old
    · rw [if_neg here]
      exact h a

theorem putAll (h : c.Roomy packs)
    (snug : ∀ item ∈ items, Snug packs item.size item.leaves) (put : PutAll w items c last) :
    last.Roomy packs := by
  induction items generalizing c with
  | nil =>
    cases put
    exact h
  | cons item rest ih =>
    unfold PutAll at put
    rw [List.foldlM_cons] at put
    obtain ⟨next, first, later⟩ := Option.bind_eq_some_iff.mp put
    have ⟨own, others⟩ := List.forall_mem_cons.mp snug
    exact ih (h.put? own first) others later

end Container.Roomy

/-- Zones whose packs fit into them are items whose packs fit into them. -/
theorem snug_zoneItems {zones : PerClass Zone}
    (snug : ∀ a, Snug packs (zones.get a).size (zones.get a).leaves) (classes : List Alignment) :
    ∀ item ∈ zoneItems zones classes, Snug packs item.size item.leaves := by
  intro item member
  obtain ⟨a, _, rfl⟩ := List.mem_map.mp member
  exact snug a

/-- The packs of the arms of a variant fit into the zones of its storage. -/
theorem Storage.Sound.snug {arms : List Arm} {s : Storage} (sound : s.Sound w arms)
    (snug : ∀ arm ∈ arms, ∀ item ∈ arm.pending, Snug packs item.size item.leaves) (a : Alignment) :
    Snug packs ((s.zones w).get a).size ((s.zones w).get a).leaves := by
  obtain ⟨step, member, rfl⟩ := sound.exists_step a
  obtain ⟨filled, own⟩ := sound.steps step member
  obtain ⟨results, _, piles, each⟩ := filled.filled
  rw [(sound.get_zones member).1]
  intro leaf inside id outer
  obtain ⟨stack, listed, inside⟩ := List.mem_flatMap.mp inside
  obtain ⟨⟨offset, item⟩, placed, inside⟩ := List.mem_flatMap.mp inside
  have compact : stack.Compact := by
    rw [piles] at listed
    obtain ⟨r, result, rfl⟩ := List.mem_map.mp listed
    obtain ⟨_, _, fill⟩ := exists_left_of_mem each result
    exact fill.compact
  obtain ⟨arm, there, from_⟩ := exists_left_of_mem own listed
  obtain ⟨among, height⟩ := Stack.mem_placed compact placed
  have fits := filled.height_le stack listed
  have inner := (snug arm there item (from_ item among)).mono
    (show item.size ≤ step.size from Nat.le_trans (Nat.le_of_add_left_le height) fits)
  exact inner.moved w offset leaf inside id outer

/-! ## Drafts -/

/-- The packs of a draft are nested, and fit into its container. -/
structure Draft.Fitting (draft : Draft) : Prop where
  nested : Nested draft.packs
  roomy : draft.container.Roomy draft.packs

namespace Draft

theorem fitting_empty : Fitting .empty where
  nested := ⟨by simp [empty], by simp [empty]⟩
  roomy := by
    intro a
    cases a <;> exact snug_nil _ _

theorem Fitting.put {span : Span} {item : Item} (h : draft.Fitting)
    (snug : Snug draft.packs item.size item.leaves) (put : draft.put w span item = .ok after) :
    after.Fitting := by
  obtain ⟨into, same⟩ := (ensures_put w span item draft).of_ok put
  rw [same]
  exact ⟨h.nested, h.roomy.put? snug into⟩

theorem Fitting.putPack {span : Span} {length size : Nat} {a : Alignment} (h : draft.Fitting)
    (snug : Snug draft.packs size leaves)
    (put : draft.putPack w span length a size leaves = .ok after) :
    after.Fitting ∧ SameSizes draft.packs after.packs := by
  unfold Draft.putPack at put
  split at put
  · cases put
    exact ⟨h, (Extends.refl _).sameSizes⟩
  · split at put
    · contradiction
    · rename_i total checked
      obtain ⟨_, rfl⟩ := Width.checked_eq_some.mp checked
      have same := sameSizes_adopted draft.packs ⟨size * length, size, length, a, none⟩ leaves
      have nested := h.nested.adopted
        (show Snug draft.packs (Pack.mk (size * length) size length a none).elementSize leaves
          from snug) rfl rfl
      obtain ⟨into, changed⟩ := (ensures_put w span _ _).of_ok put
      constructor
      · have more : Fitting (draft.addPack ⟨size * length, size, length, a, none⟩ leaves).2 :=
          ⟨nested, h.roomy.carry same⟩
        refine more.put ?_ put
        intro leaf member id outer
        obtain ⟨inner, listed, rfl⟩ := List.mem_map.mp member
        cases outer
        exact ⟨_, snug.adopted_new, Nat.le_refl _⟩
      · rw [changed]
        exact same

/-- An array becomes the parent of the packs of its element. -/
theorem Fitting.putArray {span : Span} {length : Nat} {element : PerClass Zone} (h : draft.Fitting)
    (whole : ∀ a, a.bytes ∣ (element.get a).size)
    (snug : ∀ a, Snug draft.packs (element.get a).size (element.get a).leaves)
    (put : draft.putArray w span length element = .ok after) : after.Fitting := by
  unfold Draft.putArray at put
  split at put
  · contradiction
  · rename_i footprint counted
    obtain ⟨exact_, bytes⟩ := footprint?_spec whole counted
    have each (a : Alignment) (rest : List Alignment) (now : Draft) (sofar : now.Fitting ∧
        ∀ a, Snug now.packs (element.get a).size (element.get a).leaves) :
        Ensures (fun _ => True) (fun next : Draft => next.Fitting ∧
          ∀ a, Snug next.packs (element.get a).size (element.get a).leaves)
          (now.putPack w span length a (footprint.bytes w a) (element.get a).leaves) := by
      obtain ⟨fitting, snug⟩ := sofar
      rw [exact_.bytes, bytes]
      cases run : now.putPack w span length a (element.get a).size (element.get a).leaves with
      | error e => trivial
      | ok next =>
        obtain ⟨fitting, same⟩ := fitting.putPack (snug a) run
        exact ⟨fitting, fun b => (snug b).carry same⟩
    exact ((Ensures.foldlM (fun _ (now : Draft) => now.Fitting ∧
      ∀ a, Snug now.packs (element.get a).size (element.get a).leaves) each ⟨h, snug⟩).of_ok put).1

/-- Items are put in whose packs fit into them. -/
theorem Fitting.putAll {items : List Item} (h : draft.Fitting)
    (snug : ∀ item ∈ items, Snug draft.packs item.size item.leaves)
    (put : PutAll w items draft.container after.container) (same : after.packs = draft.packs) :
    after.Fitting := by
  constructor
  · rw [same]
    exact h.nested
  · rw [same]
    exact h.roomy.putAll snug put

theorem Fitting.putLeaf {span : Span} {align : Alignment} {size : Nat} (h : draft.Fitting)
    (put : draft.putLeaf w span align size = .ok after) : after.Fitting := by
  obtain ⟨same, into⟩ := of_putLeaf put
  exact h.putAll (by simp [Snug]) into (by rw [same])

/-- The packs of a copy come behind those of the draft. -/
theorem Fitting.embed {span : Span} {parts : List Part} (h : draft.Fitting)
    (realizes : t.Realizes w parts) (nested : Nested t.packs)
    (snug : ∀ a, Snug t.packs (t.zones.get a).size (t.zones.get a).leaves)
    (put : draft.embed w span t = .ok after) : after.Fitting := by
  obtain ⟨same, into⟩ := of_embed put
  have packs : after.packs = copied draft.packs t.packs := by
    rw [same]
    rfl
  have zones (a : Alignment) : Snug (copied draft.packs t.packs)
      (((t.renumber draft.slots draft.packs.size).sizedZones w).get a).size
      (((t.renumber draft.slots draft.packs.size).sizedZones w).get a).leaves := by
    rw [realizes.get_sizedZones]
    exact (snug a).copied draft.packs draft.slots
  have roomy : draft.container.Roomy (copied draft.packs t.packs) :=
    h.roomy.carry (extends_append _ _).sameSizes
  constructor
  · rw [packs]
    exact h.nested.copied nested
  · rw [packs]
    exact roomy.putAll (snug_zoneItems zones _) into

end Draft

/-! ## Derivations -/

/-- The packs in the fields of some arms fit into them. -/
def ArmsSnug (packs : Array Pack) (arms : List Arm) : Prop :=
  ∀ arm ∈ arms, ∀ item ∈ arm.pending, Snug packs item.size item.leaves

mutual

/-- All packs stay nested when a shape is put into a draft. -/
theorem Puts.fitting {shape : Shape} {before after : Draft} :
    Puts setting shape before after → before.slots ≤ maxSlots → before.Fitting → after.Fitting
  | .leaf _ _ put, _, h => h.putLeaf put
  | @Puts.array _ _ _ _ before inner _ _ inside put, room, h => by
    have grown := inside.grows room
    obtain ⟨nested, roomy⟩ := inside.fitting room
      ⟨h.nested, Draft.fitting_empty.roomy.carry (by simp [SameSizes, Draft.empty])⟩
    have ready : Draft.Fitting { inner with container := before.container } :=
      ⟨nested, h.roomy.carry grown.packs.sameSizes⟩
    exact ready.putArray (grown.body rfl).1 roomy.snug_zones put
  | @Puts.variant _ _ _ _ _ before tagged filled _ tag inside resolved put, _, h => by
    have tagging := (ensures_putTag _).of_ok tag
    have collects := inside.collects tagging.slots_le rfl
    obtain ⟨nested, roomy⟩ := h.putLeaf tag
    obtain ⟨nested, arms⟩ := inside.fitting tagging.slots_le ⟨nested, nofun⟩ rfl
    have ready : Draft.Fitting { filled with container := tagged.container } :=
      ⟨nested, roomy.carry collects.packs.sameSizes⟩
    have sound := (ensures_resolution _ _ _).of_ok resolved
    have zones := sound.snug fun arm member => arms arm ((byRequirement_perm _).mem_iff.mp member)
    obtain ⟨_, same, into⟩ := Draft.of_putVariant put
    exact ready.putAll (snug_zoneItems zones _) into (by rw [same])
  | .record inside, room, h => inside.fitting room h
  | .struct made put, _, h => h.embed made.realizes made.fitting.1 made.fitting.2 put

theorem PutsFields.fitting {shapes : List Shape} {before after : Draft} :
    PutsFields setting shapes before after → before.slots ≤ maxSlots → before.Fitting →
      after.Fitting
  | .nil, _, h => h
  | .concat earlier last, room, h =>
    last.fitting (earlier.grows room).slots_le (earlier.fitting room h)

theorem PutsArms.fitting {shapes : List Shape} {arms : List Arm} {before now : Draft} :
    PutsArms setting shapes arms before now → before.slots ≤ maxSlots → before.Fitting →
      before.container = .arm [] → Nested now.packs ∧ ArmsSnug now.packs arms
  | .nil, _, h, _ => ⟨h.nested, nofun⟩
  | .concat earlier last made, room, h, empty => by
    obtain ⟨nested, arms⟩ := earlier.fitting room h empty
    have sofar := earlier.collects room empty
    have grown := last.grows sofar.slots_le
    have next := last.fitting sofar.slots_le ⟨nested, by rw [sofar.container]; nofun⟩
    obtain ⟨_, _, pending⟩ := Arm.collected_of? (grown.collected sofar.container).1 made
    refine ⟨next.nested, fun arm member item inside => ?_⟩
    obtain here | last := List.mem_append.mp member
    · exact (arms arm here item inside).carry grown.packs.sameSizes
    · rw [List.mem_singleton.mp last, pending] at inside
      exact next.roomy.snug_items inside

theorem PutsBody.fitting {shapes : List Shape} {draft : Draft} :
    PutsBody setting shapes draft → draft.Fitting
  | .nil => Draft.fitting_empty
  | .fixed earlier last => last.fitting earlier.grows.slots_le earlier.fitting
  | .dynamic earlier _ => ⟨earlier.fitting.nested, earlier.fitting.roomy⟩

/-- The packs of a template are nested, and fit into its zones. -/
theorem Makes.fitting {shapes : List Shape} {t : Template} : Makes setting shapes t →
    Nested t.packs ∧ ∀ a, Snug t.packs (t.zones.get a).size (t.zones.get a).leaves
  | .made body _ _ _ => ⟨body.fitting.nested, body.fitting.roomy.snug_zones⟩

end

/-! ## Chains -/

/-- Along a chain every pack is as large as its elements together, and fits into one element of the
pack before it. -/
structure Fits (chain : List Pack) : Prop where
  sizes : ∀ pack ∈ chain, pack.size = pack.elementSize * pack.length
  inside : chain.IsChain fun outer inner => inner.size ≤ outer.elementSize

theorem Linked.fits {layout : Layout} (nested : Nested layout.packs) {bound : Nat}
    {parent : Option PackId} {ids : List PackId} (linked : Linked layout.packs bound parent ids) :
    ∃ chain, ids.mapM layout.pack? = some chain ∧ Fits chain ∧
      ∀ pack, chain.head? = some pack → pack.parent = parent ∧ pack ∈ layout.packs := by
  induction linked with
  | nil => exact ⟨[], rfl, ⟨nofun, .nil⟩, nofun⟩
  | @cons _ _ id ids pack known _ parent_eq _ ih =>
    obtain ⟨chain, found, fits, first⟩ := ih
    refine ⟨pack :: chain, ?_, ⟨?_, ?_⟩, ?_⟩
    · rw [List.mapM_cons, found, Layout.pack?, known]
      rfl
    · exact List.forall_mem_cons.mpr ⟨nested.size_eq _ _ known, fits.sizes⟩
    · refine List.isChain_cons.mpr ⟨fun inner head => ?_, fits.inside⟩
      obtain ⟨own, member⟩ := first inner head
      obtain ⟨i, there⟩ := Array.mem_iff_getElem?.mp member
      obtain ⟨outer, here, le⟩ := nested.fits i inner id there own
      obtain rfl := Option.some.inj (known.symm.trans here)
      exact le
    · rintro _ ⟨⟩
      exact ⟨parent_eq, Array.mem_of_getElem? known⟩

end PackedLayout
