import PackedLayout.Engine.Draft
import PackedLayout.Proofs.Realizing

/-!
# Arrays and copies

An array turns every zone of its element into one item with a pack of its own, and makes that pack
the parent of the packs inside. A copy of a struct moves all slots and packs up.

- `adopted_of_outer`, `adopted_of_other`: which packs a new pack becomes the parent of;
- `Repeating.step`: turning one more zone into an item of the array;
- `Realizes.renumber`: a copy realizes the same parts.
-/

namespace PackedLayout

variable {packs before : Array Pack} {pack : Pack} {leaves : List Leaf} {first base length : Nat}
  {parts : List Part}

/-! ## A new pack -/

/-- The table with one more pack, which is the parent of the outermost packs of some leaves. -/
def adopted (packs : Array Pack) (pack : Pack) (leaves : List Leaf) : Array Pack :=
  leaves.foldl (Draft.adopt ⟨packs.size⟩) (packs.push pack)

theorem getElem?_adopt (id : PackId) (packs : Array Pack) (leaf : Leaf) (i : Nat) :
    (Draft.adopt id packs leaf)[i]? =
      if leaf.packs.head? = some ⟨i⟩ then packs[i]?.map fun p => { p with parent := some id }
      else packs[i]? := by
  unfold Draft.adopt
  cases leaf.packs with
  | nil => rfl
  | cons outer inner =>
    have same : (some outer = some (⟨i⟩ : PackId)) ↔ outer.index = i := by
      rw [Option.some.injEq, ← PackId.mk.injEq]
    simp only [Array.getElem?_modify, List.head?_cons, same]

theorem getElem?_foldl_adopt_of_other {id : PackId} {i : Nat}
    (none : ∀ leaf ∈ leaves, leaf.packs.head? ≠ some ⟨i⟩) :
    (leaves.foldl (Draft.adopt id) packs)[i]? = packs[i]? := by
  induction leaves generalizing packs with
  | nil => rfl
  | cons leaf rest ih =>
    rw [List.foldl_cons, ih fun other later => none other (List.mem_cons_of_mem _ later),
      getElem?_adopt, if_neg (none leaf List.mem_cons_self)]

/-- Once adopted, a pack keeps its parent. -/
theorem getElem?_foldl_adopt_keeps {id : PackId} {i : Nat} {p : Pack}
    (known : packs[i]? = some { p with parent := some id }) :
    (leaves.foldl (Draft.adopt id) packs)[i]? = some { p with parent := some id } := by
  induction leaves generalizing packs with
  | nil => exact known
  | cons leaf rest ih =>
    rw [List.foldl_cons]
    refine ih ?_
    rw [getElem?_adopt, known]
    split <;> rfl

theorem getElem?_foldl_adopt_of_outer {id : PackId} {i : Nat} {p : Pack} {leaf : Leaf}
    (member : leaf ∈ leaves) (outer : leaf.packs.head? = some ⟨i⟩) (known : packs[i]? = some p) :
    (leaves.foldl (Draft.adopt id) packs)[i]? = some { p with parent := some id } := by
  induction leaves generalizing packs p with
  | nil => exact absurd member List.not_mem_nil
  | cons other rest ih =>
    rw [List.foldl_cons]
    by_cases here : other.packs.head? = some ⟨i⟩
    · refine getElem?_foldl_adopt_keeps ?_
      rw [getElem?_adopt, if_pos here, known]
      rfl
    · obtain rfl | later := List.mem_cons.mp member
      · exact absurd outer here
      · refine ih later ?_
        rw [getElem?_adopt, if_neg here, known]

theorem adopted_new_of_head
    (outer : ∀ leaf ∈ leaves, ∀ id, leaf.packs.head? = some id → id.index < packs.size) :
    (adopted packs pack leaves)[packs.size]? = some pack := by
  unfold adopted
  rw [getElem?_foldl_adopt_of_other, Array.getElem?_push_size]
  intro leaf member head
  exact Nat.lt_irrefl _ (outer leaf member _ head)

theorem adopted_new (outer : ∀ leaf ∈ leaves, ∀ id ∈ leaf.packs, id.index < packs.size) :
    (adopted packs pack leaves)[packs.size]? = some pack :=
  adopted_new_of_head fun leaf member id head => outer leaf member id (List.mem_of_head? head)

theorem adopted_of_outer {leaf : Leaf} {id : PackId} {p : Pack} (member : leaf ∈ leaves)
    (outer : leaf.packs.head? = some id) (known : packs[id.index]? = some p) :
    (adopted packs pack leaves)[id.index]? = some { p with parent := some ⟨packs.size⟩ } := by
  obtain ⟨inside, _⟩ := Array.getElem?_eq_some_iff.mp known
  refine getElem?_foldl_adopt_of_outer member outer ?_
  rw [Array.getElem?_push_lt inside, ← Array.getElem?_eq_getElem inside, known]

theorem adopted_of_other {i : Nat} {p : Pack} (known : packs[i]? = some p)
    (other : ∀ leaf ∈ leaves, leaf.packs.head? ≠ some ⟨i⟩) :
    (adopted packs pack leaves)[i]? = some p := by
  obtain ⟨inside, _⟩ := Array.getElem?_eq_some_iff.mp known
  unfold adopted
  rw [getElem?_foldl_adopt_of_other other, Array.getElem?_push_lt inside,
    ← Array.getElem?_eq_getElem inside, known]

theorem size_adopted : (adopted packs pack leaves).size = packs.size + 1 := by
  have keeps (leaves : List Leaf) (id : PackId) (table : Array Pack) :
      (leaves.foldl (Draft.adopt id) table).size = table.size := by
    induction leaves generalizing table with
    | nil => rfl
    | cons leaf rest ih =>
      rw [List.foldl_cons, ih]
      unfold Draft.adopt
      cases leaf.packs with
      | nil => rfl
      | cons outer inner => exact Array.size_modify
  rw [adopted, keeps, Array.size_push]

/-- A pack that is adopted repeats as before. -/
theorem adopted_dim (pack : Pack) (leaves : List Leaf) {i : Nat} {p : Pack}
    (known : packs[i]? = some p) :
    ∃ q, (adopted packs pack leaves)[i]? = some q ∧ q.elementSize = p.elementSize ∧
      q.length = p.length := by
  by_cases outer : ∃ leaf ∈ leaves, leaf.packs.head? = some ⟨i⟩
  · obtain ⟨leaf, member, head⟩ := outer
    exact ⟨_, adopted_of_outer member head known, rfl, rfl⟩
  · refine ⟨p, adopted_of_other known fun leaf member head => outer ⟨leaf, member, head⟩, rfl, rfl⟩

/-! ## Chains after a new pack -/

namespace Linked

variable {next : Array Pack} {bound : Nat} {parent : Option PackId} {ids : List PackId}
  {id : PackId}

theorem congr (h : Linked packs bound parent ids)
    (same : ∀ id ∈ ids, next[id.index]? = packs[id.index]?) : Linked next bound parent ids := by
  induction h with
  | nil => exact nil
  | cons known below parent_eq _ ih =>
    refine cons ?_ below parent_eq (ih fun id later => same id (List.mem_cons_of_mem _ later))
    rw [same _ List.mem_cons_self, known]

/-- Inside of a pack that has a parent, every pack has one. -/
theorem parent_of_mem {outer : PackId} (h : Linked packs bound (some outer) ids)
    (member : id ∈ ids) : ∃ pack, packs[id.index]? = some pack ∧ pack.parent ≠ none := by
  induction ids generalizing bound outer with
  | nil => exact absurd member List.not_mem_nil
  | cons next rest ih =>
    cases h with
    | cons known below parent_eq inner =>
      obtain rfl | later := List.mem_cons.mp member
      · refine ⟨_, known, ?_⟩
        rw [parent_eq]
        exact Option.some_ne_none _
      · exact ih inner later

end Linked

/-- The outermost packs of the leaves have no parent yet. -/
def Unadopted (packs : Array Pack) (leaves : List Leaf) : Prop :=
  ∀ leaf ∈ leaves, Linked packs packs.size none leaf.packs

/-- Inner packs are not adopted again. -/
theorem Unadopted.inner (unadopted : Unadopted packs leaves) {bound : Nat} {outer : PackId}
    {ids : List PackId} (h : Linked packs bound (some outer) ids) :
    Linked (adopted packs pack leaves) bound (some outer) ids := by
  apply h.congr
  intro id member
  obtain ⟨p, known, owned⟩ := h.parent_of_mem member
  rw [known]
  apply adopted_of_other known
  intro leaf listed head
  have linked := unadopted leaf listed
  cases packs_eq : leaf.packs with
  | nil =>
    rw [packs_eq] at head
    contradiction
  | cons first rest =>
    rw [packs_eq] at head linked
    obtain rfl := Option.some.inj head
    cases linked with
    | cons known' below parent_eq inner =>
      obtain rfl := Option.some.inj (known.symm.trans known')
      exact owned parent_eq

/-- Chains that begin elsewhere stay as they are. -/
theorem Unadopted.other (unadopted : Unadopted packs leaves) {leaf : Leaf}
    (h : Linked packs packs.size none leaf.packs)
    (apart : ∀ l ∈ leaves, ∀ id, leaf.packs.head? = some id → l.packs.head? ≠ some id) :
    Linked (adopted packs pack leaves) (packs.size + 1) none leaf.packs := by
  cases packs_eq : leaf.packs with
  | nil => exact Linked.nil
  | cons first rest =>
    rw [packs_eq] at h apart
    cases h with
    | cons known below parent_eq inner =>
      exact Linked.cons (adopted_of_other known fun l listed => apart l listed first rfl)
        (Nat.lt_succ_of_lt below) parent_eq (unadopted.inner inner)

/-- The chains of the leaves begin at the new pack. -/
theorem Unadopted.own (unadopted : Unadopted packs leaves) (root : pack.parent = none) {leaf : Leaf}
    (member : leaf ∈ leaves) :
    Linked (adopted packs pack leaves) (packs.size + 1) none (⟨packs.size⟩ :: leaf.packs) := by
  refine Linked.cons (adopted_new fun leaf listed id inner => (unadopted leaf listed).lt inner)
    (Nat.lt_succ_self _) root ?_
  have linked := unadopted leaf member
  cases packs_eq : leaf.packs with
  | nil => exact Linked.nil
  | cons first rest =>
    have outer : leaf.packs.head? = some first := by rw [packs_eq, List.head?_cons]
    rw [packs_eq] at linked
    cases linked with
    | cons known below parent_eq inner =>
      exact Linked.cons (adopted_of_outer member outer known) below rfl (unadopted.inner inner)

/-! ## Items of an array -/

/-- An item that becomes one class of an array. -/
def Item.repeated (id : PackId) (length : Nat) (item : Item) : Item :=
  ⟨item.size * length, item.align, item.leaves.map (Legend.wrapped id)⟩

/-- The pack of an item that is repeated. -/
def Item.repeatedPack (length : Nat) (item : Item) : Pack :=
  { size := item.size * length, elementSize := item.size, length, align := item.align }

theorem sameDims_adopted {leaf : Leaf} {others : List Part}
    (linked : Linked packs packs.size none leaf.packs) :
    (Legend.of packs base parts).SameDims (Legend.of (adopted packs pack leaves) base others)
      leaf := by
  intro id member
  obtain ⟨p, known⟩ := linked.known member
  obtain ⟨q, after, stride, times⟩ := adopted_dim pack leaves known
  show ((adopted packs pack leaves)[id.index]?).elim _ _ = (packs[id.index]?).elim _ _
  rw [known, after]
  show Dim.mk q.elementSize q.length = Dim.mk p.elementSize p.length
  rw [stride, times]

/-- An item beside the one that is repeated stays sound. -/
theorem Item.Sound.beside {item other : Item}
    (h : other.Sound packs first (Legend.of packs base parts))
    (unadopted : Unadopted packs item.leaves) (apart : other.Separate item) :
    other.Sound (adopted packs pack item.leaves) first
      (Legend.of (adopted packs pack item.leaves) base parts) where
  whole := h.whole
  arranged := h.arranged.congr fun leaf member => ⟨rfl, sameDims_adopted (h.linked leaf member)⟩
  linked := by
    intro leaf member
    rw [size_adopted]
    exact unadopted.other (h.linked leaf member) fun l listed id head =>
      apart leaf member l listed id head
  fresh := h.fresh

/-- A sound item that is repeated is sound. -/
theorem Item.Sound.repeated {item : Item} (h : item.Sound packs first (Legend.of packs base parts))
    (pos : 0 < length) (first_le : first ≤ packs.size)
    (slots : ∀ leaf ∈ item.leaves, leaf.slot - base < parts.length) :
    (item.repeated ⟨packs.size⟩ length).Sound
      (adopted packs (item.repeatedPack length) item.leaves) first
      (Legend.of (adopted packs (item.repeatedPack length) item.leaves) base
        (parts.map (Part.under (.element length)))) where
  whole := ⟨Nat.mul_pos h.whole.size_pos pos, Nat.dvd_mul_right_of_dvd h.whole.size_dvd length⟩
  arranged := by
    refine h.arranged.repeats h.whole.size_dvd pos ?_ fun leaf member => ⟨?_,
      sameDims_adopted (h.linked leaf member)⟩
    · show ((adopted packs (item.repeatedPack length) item.leaves)[packs.size]?).elim _ _ = _
      rw [adopted_new fun leaf listed id inner => (h.linked leaf listed).lt inner]
      rfl
    · show ((parts.map (Part.under _))[leaf.slot - base]?).getD _ =
        Part.under _ ((parts[leaf.slot - base]?).getD _)
      rw [List.getElem?_map, List.getElem?_eq_getElem (slots leaf member)]
      rfl
  linked := by
    intro leaf member
    obtain ⟨leaf, listed, rfl⟩ := List.mem_map.mp member
    rw [size_adopted]
    exact Unadopted.own (fun leaf listed => h.linked leaf listed) rfl listed
  fresh := by
    intro leaf member id inner
    obtain ⟨leaf, listed, rfl⟩ := List.mem_map.mp member
    obtain rfl | inside := List.mem_cons.mp inner
    · exact first_le
    · exact h.fresh leaf listed id inside

/-- Some zones of an element are items of the array already, and the others wait. -/
structure Repeating (packs : Array Pack) (first base : Nat) (parts : List Part) (length : Nat)
    (ready waiting : List Item) : Prop where
  slots : (((ready ++ waiting).flatMap (·.leaves)).map (·.slot)).Perm
    (List.range' base parts.length)
  sound_ready : ∀ item ∈ ready, item.Sound packs first
    (Legend.of packs base (parts.map (Part.under (.element length))))
  sound_waiting : ∀ item ∈ waiting, item.Sound packs first (Legend.of packs base parts)
  separate : (ready ++ waiting).Pairwise Item.Separate

namespace Repeating

variable {item : Item} {items ready waiting : List Item}

theorem start (h : Realizes packs first base parts items) :
    Repeating packs first base parts length [] items where
  slots := h.slots
  sound_ready := fun _ absent => absurd absent List.not_mem_nil
  sound_waiting := h.sound
  separate := h.separate

theorem finish (h : Repeating packs first base parts length items []) :
    Realizes packs first base (parts.map (Part.under (.element length))) items where
  slots := by
    have slots := h.slots
    rwa [List.append_nil, ← List.length_map (f := Part.under (.element length))] at slots
  sound := h.sound_ready
  separate := by
    have separate := h.separate
    rwa [List.append_nil] at separate

theorem step (h : Repeating packs first base parts length ready (item :: waiting))
    (pos : 0 < length) (first_le : first ≤ packs.size) :
    Repeating (adopted packs (item.repeatedPack length) item.leaves) first base parts length
      (ready ++ [item.repeated ⟨packs.size⟩ length]) waiting := by
  have sound := h.sound_waiting item List.mem_cons_self
  have unadopted : Unadopted packs item.leaves := sound.linked
  have pairs := (List.perm_middle.pairwise_iff Item.Separate.symm).mp h.separate
  obtain ⟨apart, others⟩ := List.pairwise_cons.mp pairs
  have below (other : Item) (member : other ∈ ready ++ waiting) :
      ∀ leaf ∈ other.leaves, ∀ id ∈ leaf.packs, id.index < packs.size := by
    intro leaf inner id outer
    obtain here | there := List.mem_append.mp member
    · exact ((h.sound_ready other here).linked leaf inner).lt outer
    · exact ((h.sound_waiting other (List.mem_cons_of_mem _ there)).linked leaf inner).lt outer
  refine ⟨?_, fun other member => ?_, fun other member => ?_, ?_⟩
  · refine List.Perm.trans (List.Perm.of_eq ?_) h.slots
    simp only [List.flatMap_append, List.flatMap_cons, List.flatMap_nil, List.append_nil,
      List.map_append, List.append_assoc]
    congr 2
    rw [Item.repeated, List.map_map]
    rfl
  · obtain here | new := List.mem_append.mp member
    · exact (h.sound_ready other here).beside unadopted
        (apart other (List.mem_append_left _ here)).symm
    · rw [List.mem_singleton.mp new]
      apply sound.repeated pos first_le
      intro leaf inner
      have listed : leaf.slot ∈ List.range' base parts.length := by
        refine h.slots.mem_iff.mp (List.mem_map_of_mem (List.mem_flatMap.mpr ⟨item, ?_, inner⟩))
        exact List.mem_append_right _ List.mem_cons_self
      have := List.mem_range'_1.mp listed
      omega
  · exact (h.sound_waiting other (List.mem_cons_of_mem _ member)).beside unadopted
      (apart other (List.mem_append_right _ member)).symm
  · rw [List.append_assoc]
    refine (List.perm_middle.pairwise_iff Item.Separate.symm).mpr
      (List.pairwise_cons.mpr ⟨fun other member l here m there id outer outer' => ?_, others⟩)
    obtain ⟨leaf, _, rfl⟩ := List.mem_map.mp here
    obtain rfl := Option.some.inj outer
    have := below other member m there _ (List.mem_of_head? outer')
    exact Nat.lt_irrefl _ this

end Repeating

/-- Packs that are not around the leaves stay in the table. -/
theorem extends_adopted (grown : Extends before packs)
    (fresh : ∀ leaf ∈ leaves, ∀ id ∈ leaf.packs, before.size ≤ id.index) :
    Extends before (adopted packs pack leaves) := by
  intro i p known
  obtain ⟨inside, _⟩ := Array.getElem?_eq_some_iff.mp known
  apply adopted_of_other (grown i p known)
  intro leaf member head
  exact Nat.not_lt.mpr (fresh leaf member _ (List.mem_of_head? head)) inside

/-! ## Copies -/

/-- An item with its slots and packs moved up. -/
def Item.renumber (slots packs : Nat) (item : Item) : Item :=
  { item with leaves := item.leaves.map (Leaf.renumber slots packs) }

/-- The packs of a copy, after those of another table. -/
def copied (before packs : Array Pack) : Array Pack :=
  before ++ packs.map (Pack.renumber before.size)

theorem getElem?_copied (i : Nat) :
    (copied before packs)[i + before.size]? = packs[i]?.map (Pack.renumber before.size) := by
  unfold copied
  rw [Array.getElem?_append_right (Nat.le_add_left _ _), Nat.add_sub_cancel, Array.getElem?_map]

theorem Linked.renumber {bound : Nat} {parent : Option PackId} {ids : List PackId}
    (h : Linked packs bound parent ids) (before : Array Pack) :
    Linked (copied before packs) (bound + before.size)
      (parent.map (PackId.renumber before.size)) (ids.map (PackId.renumber before.size)) := by
  induction h with
  | nil => exact Linked.nil
  | @cons _ _ id _ pack known below parent_eq _ ih =>
    refine @Linked.cons _ _ _ _ _ (pack.renumber before.size) ?_
      (Nat.add_lt_add_right below _) ?_ ih
    · show (copied before packs)[id.index + before.size]? = _
      rw [getElem?_copied, known]
      rfl
    · show pack.parent.map _ = _
      rw [parent_eq]

theorem renames_renumber (before : Array Pack) (base : Nat) (leaf : Leaf) :
    (Legend.of packs 0 parts).Renames (Legend.of (copied before packs) base parts) leaf
      (leaf.renumber base before.size) where
  offset_eq := rfl
  align_eq := rfl
  part_eq := by
    show (parts[leaf.slot + base - base]?).getD _ = (parts[leaf.slot - 0]?).getD _
    rw [Nat.add_sub_cancel, Nat.sub_zero]
  dims_eq := by
    show (leaf.packs.map (PackId.renumber before.size)).map _ = _
    rw [List.map_map]
    apply List.map_congr_left
    intro id _
    show ((copied before packs)[id.index + before.size]?).elim _ _ = (packs[id.index]?).elim _ _
    rw [getElem?_copied]
    cases packs[id.index]? with
    | none => rfl
    | some pack => rfl

/-- A copy realizes the same parts. -/
theorem Realizes.renumber {items : List Item} (h : Realizes packs 0 0 parts items)
    (before : Array Pack) (base : Nat) :
    Realizes (copied before packs) before.size base parts
      (items.map (Item.renumber base before.size)) where
  slots := by
    have moved : ((items.map (Item.renumber base before.size)).flatMap (·.leaves)).map (·.slot) =
        ((items.flatMap (·.leaves)).map (·.slot)).map (base + ·) := by
      rw [List.flatMap_map, List.map_flatMap, List.map_map, List.map_flatMap]
      apply List.flatMap_congr
      intro item _
      show (item.leaves.map _).map _ = _
      rw [List.map_map]
      exact List.map_congr_left fun leaf _ => Nat.add_comm leaf.slot base
    rw [moved]
    have shifted := h.slots.map (base + ·)
    rwa [List.map_add_range', Nat.add_zero] at shifted
  sound := by
    intro item member
    obtain ⟨item, listed, rfl⟩ := List.mem_map.mp member
    have sound := h.sound item listed
    have renamed := sound.arranged.rename (Leaf.renumber base before.size)
      (fun leaf _ => renames_renumber before base leaf) fun l m => Nat.add_left_inj
    refine ⟨⟨sound.whole.size_pos, sound.whole.size_dvd⟩, renamed, fun leaf inner => ?_,
      fun leaf inner id outer => ?_⟩
    · obtain ⟨leaf, inside, rfl⟩ := List.mem_map.mp inner
      have size : (copied before packs).size = packs.size + before.size := by
        rw [copied, Array.size_append, Array.size_map, Nat.add_comm]
      rw [size]
      exact (sound.linked leaf inside).renumber before
    · obtain ⟨leaf, inside, rfl⟩ := List.mem_map.mp inner
      obtain ⟨id, _, rfl⟩ := List.mem_map.mp outer
      exact Nat.le_add_left _ _
  separate := by
    refine List.pairwise_map.mpr (h.separate.imp fun apart l here m there id outer outer' => ?_)
    obtain ⟨l, own, rfl⟩ := List.mem_map.mp here
    obtain ⟨m, own', rfl⟩ := List.mem_map.mp there
    change (l.packs.map _).head? = _ at outer
    change (m.packs.map _).head? = _ at outer'
    rw [List.head?_map] at outer outer'
    obtain ⟨a, first, rfl⟩ := Option.map_eq_some_iff.mp outer
    obtain ⟨b, second, same⟩ := Option.map_eq_some_iff.mp outer'
    have equal : b = a := by
      have := congrArg PackId.index same
      cases a
      cases b
      exact congrArg PackId.mk (Nat.add_right_cancel this)
    exact apart l own m own' a first (equal ▸ second)

end PackedLayout
