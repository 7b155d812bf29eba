import PackedLayout.Proofs.Geometry

/-!
# Items that realize parts

The leaves in some items realize a list of parts: each part is one leaf, in the order of the
slots, and the elements of the leaves are arranged. The table of packs says how leaves repeat.

- `Linked`: the packs around a leaf are a chain of parents in the table;
- `Realizes`: items realize parts, in a table of packs;
- `Realizes.append`, `Realizes.under`, `Realizes.merge`: parts one after the other, seen from
  further out, and merged into larger items.
-/

namespace PackedLayout

/-! ## Chains of packs -/

/-- Packs with indices below `bound`, each the parent of the next, where the first has the parent
given. -/
inductive Linked (packs : Array Pack) : Nat → Option PackId → List PackId → Prop
  | nil {bound : Nat} {parent : Option PackId} : Linked packs bound parent []
  | cons {bound : Nat} {parent : Option PackId} {id : PackId} {ids : List PackId} {pack : Pack}
    (known : packs[id.index]? = some pack) (below : id.index < bound)
    (parent_eq : pack.parent = parent) (inner : Linked packs id.index (some id) ids) :
    Linked packs bound parent (id :: ids)

/-- The packs of one table are in another, at the same places. -/
def Extends (packs next : Array Pack) : Prop :=
  ∀ (i : Nat) pack, packs[i]? = some pack → next[i]? = some pack

theorem Extends.refl (packs : Array Pack) : Extends packs packs := fun _ _ h => h

theorem Extends.trans {packs mid next : Array Pack} (first : Extends packs mid)
    (second : Extends mid next) : Extends packs next :=
  fun i pack known => second i pack (first i pack known)

theorem Extends.size_le {packs next : Array Pack} (h : Extends packs next) :
    packs.size ≤ next.size := by
  by_cases none : packs.size = 0
  · omega
  · have inside : packs.size - 1 < packs.size := by omega
    have known := h _ _ (Array.getElem?_eq_getElem inside)
    have := (Array.getElem?_eq_some_iff.mp known).1
    omega

theorem extends_append (packs others : Array Pack) : Extends packs (packs ++ others) := by
  intro i pack known
  obtain ⟨inside, _⟩ := Array.getElem?_eq_some_iff.mp known
  rw [Array.getElem?_append_left inside, known]

namespace Linked

variable {packs next : Array Pack} {bound bound' : Nat} {parent : Option PackId}
  {ids : List PackId} {id : PackId}

theorem mono (h : Linked packs bound parent ids) (le : bound ≤ bound') :
    Linked packs bound' parent ids := by
  cases h with
  | nil => exact nil
  | cons known below parent_eq inner =>
    exact cons known (Nat.lt_of_lt_of_le below le) parent_eq inner

theorem lt (h : Linked packs bound parent ids) (member : id ∈ ids) : id.index < bound := by
  induction h with
  | nil => exact absurd member List.not_mem_nil
  | cons known below parent_eq inner ih =>
    obtain rfl | later := List.mem_cons.mp member
    · exact below
    · exact Nat.lt_trans (ih later) below

theorem known (h : Linked packs bound parent ids) (member : id ∈ ids) :
    ∃ pack, packs[id.index]? = some pack := by
  induction h with
  | nil => exact absurd member List.not_mem_nil
  | cons known _ _ _ ih =>
    obtain rfl | later := List.mem_cons.mp member
    · exact ⟨_, known⟩
    · exact ih later

theorem extend (h : Linked packs bound parent ids) (grown : Extends packs next) :
    Linked next bound parent ids := by
  induction h with
  | nil => exact nil
  | cons known below parent_eq _ ih => exact cons (grown _ _ known) below parent_eq ih

/-- Indices fall along a chain, so it is no longer than its bound. -/
theorem length_le (h : Linked packs bound parent ids) : ids.length ≤ bound := by
  induction h with
  | nil => exact Nat.zero_le _
  | cons _ below _ _ ih =>
    rw [List.length_cons]
    omega

theorem nodup (h : Linked packs bound parent ids) : ids.Nodup := by
  induction h with
  | nil => exact List.nodup_nil
  | cons _ _ _ inner ih =>
    exact List.nodup_cons.mpr ⟨fun again => Nat.lt_irrefl _ (inner.lt again), ih⟩

end Linked

/-! ## Items that realize parts -/

/-- What slots from `base` on and the packs of a table stand for. -/
def Legend.of (packs : Array Pack) (base : Nat) (parts : List Part) : Legend where
  part slot := (parts[slot - base]?).getD ⟨[], 0, 0⟩
  dim id := (packs[id.index]?).elim ⟨0, 0⟩ fun pack => ⟨pack.elementSize, pack.length⟩

/-- An item with its leaves arranged, whose packs are in the table from `first` on. -/
structure Item.Sound (packs : Array Pack) (first : Nat) (g : Legend) (item : Item) : Prop where
  whole : item.Whole
  arranged : g.Arranged item.size item.align item.leaves
  linked : ∀ leaf ∈ item.leaves, Linked packs packs.size none leaf.packs
  fresh : ∀ leaf ∈ item.leaves, ∀ id ∈ leaf.packs, first ≤ id.index

/-- Leaves of two items are never in one outermost array. -/
def Item.Separate (a b : Item) : Prop :=
  ∀ l ∈ a.leaves, ∀ m ∈ b.leaves, ∀ id, l.packs.head? = some id → m.packs.head? ≠ some id

theorem Item.Separate.symm {a b : Item} (h : a.Separate b) : b.Separate a :=
  fun l here m there id first second => h m there l here id second first

/-- The items realize the parts: the leaf of the slot `base + i` is the part at position `i`. -/
structure Realizes (packs : Array Pack) (first base : Nat) (parts : List Part)
    (items : List Item) : Prop where
  slots : ((items.flatMap (·.leaves)).map (·.slot)).Perm (List.range' base parts.length)
  sound : ∀ item ∈ items, item.Sound packs first (Legend.of packs base parts)
  separate : items.Pairwise Item.Separate

section

variable {packs next : Array Pack} {first first' base base' : Nat} {g g' : Legend}
  {parts others : List Part} {item : Item} {items : List Item}

theorem sameDims_of_extends {leaf : Leaf} {bound : Nat} {parent : Option PackId}
    (linked : Linked packs bound parent leaf.packs) (grown : Extends packs next) :
    (Legend.of packs base parts).SameDims (Legend.of next base' others) leaf := by
  intro id member
  obtain ⟨pack, known⟩ := linked.known member
  show (next[id.index]?).elim _ _ = (packs[id.index]?).elim _ _
  rw [known, grown _ _ known]

/-- An item stays sound in a larger table, and under a legend that says the same about its
leaves. -/
theorem Item.Sound.extend (h : item.Sound packs first g) (grown : Extends packs next)
    (le : first' ≤ first)
    (same : ∀ leaf ∈ item.leaves, g'.part leaf.slot = g.part leaf.slot ∧ g.SameDims g' leaf) :
    item.Sound next first' g' where
  whole := h.whole
  arranged := h.arranged.congr same
  linked := fun leaf member => ((h.linked leaf member).extend grown).mono grown.size_le
  fresh := fun leaf member id inner => Nat.le_trans le (h.fresh leaf member id inner)

namespace Realizes

theorem slot_mem (h : Realizes packs first base parts items) (member : item ∈ items) {leaf : Leaf}
    (inner : leaf ∈ item.leaves) : base ≤ leaf.slot ∧ leaf.slot < base + parts.length := by
  have listed := List.mem_map_of_mem (f := Leaf.slot)
    (List.mem_flatMap.mpr ⟨item, member, inner⟩)
  exact List.mem_range'_1.mp (h.slots.mem_iff.mp listed)

theorem nil (packs : Array Pack) (first base : Nat) : Realizes packs first base [] [] where
  slots := List.Perm.refl _
  sound := fun _ absent => absurd absent List.not_mem_nil
  separate := List.Pairwise.nil

theorem perm {later : List Item} (h : Realizes packs first base parts items)
    (same : later.Perm items) : Realizes packs first base parts later where
  slots := ((same.flatMap_right _).map _).trans h.slots
  sound := fun item member => h.sound item (same.mem_iff.mp member)
  separate := (same.pairwise_iff Item.Separate.symm).mpr h.separate

/-- One primitive field realizes one part. -/
theorem leaf (packs : Array Pack) (first base : Nat) {size : Nat} {align : Alignment}
    (pos : 0 < size) (whole : align.bytes ∣ size) :
    Realizes packs first base [⟨[], size, align.bytes⟩]
      [⟨size, align, [⟨base, align, 0, []⟩]⟩] where
  slots := List.Perm.refl _
  separate := List.pairwise_singleton _ _
  sound := by
    intro item member
    rw [List.mem_singleton.mp member]
    have part : (Legend.of packs base [⟨[], size, align.bytes⟩]).part base =
        ⟨[], size, align.bytes⟩ := by simp [Legend.of]
    have only {indices : List Nat} {start : Nat}
        (h : (Legend.of packs base [⟨[], size, align.bytes⟩]).Begins ⟨base, align, 0, []⟩ indices
          start) : indices = [] ∧ start = 0 := by
      obtain ⟨n, walk, rfl⟩ := h
      cases walk
      exact ⟨rfl, rfl⟩
    refine ⟨⟨pos, whole⟩, ⟨fun leaf inner => ?_, fun l here m there => ?_⟩, fun leaf inner => ?_,
      fun leaf inner id absent => ?_⟩
    · rw [List.mem_singleton.mp inner]
      refine ⟨by rw [part], align.le_refl, by rw [part]; rfl, Nat.zero_le _,
        fun _ _ begins => ?_, fun _ _ begins => ?_⟩
      · rw [(only begins).2]
        exact Nat.dvd_zero _
      · rw [(only begins).2, part]
        exact Nat.le_of_eq (Nat.zero_add size)
    · rw [List.mem_singleton.mp here, List.mem_singleton.mp there]
      intro _ _ _ _ begins begins' differ
      rw [(only begins).1, (only begins').1] at differ
      exact absurd rfl differ
    · rw [List.mem_singleton.mp inner]
      exact Linked.nil
    · rw [List.mem_singleton.mp inner] at absent
      exact absurd absent List.not_mem_nil

/-- Parts one after the other: the packs of the later ones come after those of the earlier. -/
theorem append {later : List Item} (h : Realizes packs first base parts items)
    (h' : Realizes next packs.size (base + parts.length) others later)
    (grown : Extends packs next) (le : first ≤ packs.size) :
    Realizes next first base (parts ++ others) (items ++ later) where
  slots := by
    rw [List.flatMap_append, List.map_append, List.length_append, ← List.range'_append_1]
    exact h.slots.append h'.slots
  sound := by
    intro item member
    obtain here | there := List.mem_append.mp member
    · refine (h.sound item here).extend grown (Nat.le_refl _) fun leaf inner => ⟨?_,
        sameDims_of_extends ((h.sound item here).linked leaf inner) grown⟩
      have slot := h.slot_mem here inner
      have inside : leaf.slot - base < parts.length := by omega
      show (((parts ++ others)[leaf.slot - base]?).getD _) = (parts[leaf.slot - base]?).getD _
      rw [List.getElem?_append_left inside]
    · refine (h'.sound item there).extend (Extends.refl next) le fun leaf inner => ⟨?_,
        sameDims_of_extends ((h'.sound item there).linked leaf inner) (Extends.refl next)⟩
      have slot := h'.slot_mem there inner
      have past : parts.length ≤ leaf.slot - base := by omega
      have same : leaf.slot - base - parts.length = leaf.slot - (base + parts.length) := by omega
      show (((parts ++ others)[leaf.slot - base]?).getD _) =
        (others[leaf.slot - (base + parts.length)]?).getD _
      rw [List.getElem?_append_right past, same]
  separate := by
    refine List.pairwise_append.mpr ⟨h.separate, h'.separate,
      fun a here b there l inner m inner' id outer outer' => ?_⟩
    have below := ((h.sound a here).linked l inner).lt (List.mem_of_head? outer)
    have above := (h'.sound b there).fresh m inner' id (List.mem_of_head? outer')
    omega

/-- Parts seen from outside of a step that is not into an array. -/
theorem under (h : Realizes packs first base parts items) (step : Step)
    (plain : ∀ length, step ≠ .element length) :
    Realizes packs first base (parts.map (Part.under step)) items where
  slots := by
    rw [List.length_map]
    exact h.slots
  separate := h.separate
  sound := by
    intro item member
    have sound := h.sound item member
    refine ⟨sound.whole, sound.arranged.under plain fun leaf inner => ⟨?_,
      sameDims_of_extends (sound.linked leaf inner) (Extends.refl packs)⟩, sound.linked,
      sound.fresh⟩
    have slot := h.slot_mem member inner
    have inside : leaf.slot - base < parts.length := by omega
    show ((parts.map (Part.under step))[leaf.slot - base]?).getD _ =
      Part.under step ((parts[leaf.slot - base]?).getD _)
    rw [List.getElem?_map, List.getElem?_eq_getElem inside]
    rfl

end Realizes

end

/-! ## Items merged into larger ones -/

/-- Items at offsets in a region that becomes one item. -/
structure Group where
  size : Nat
  align : Alignment
  pieces : List (Nat × Item)

namespace Group

def toItem (group : Group) : Item := ⟨group.size, group.align, Legend.mergedLeaves group.pieces⟩

/-- The pieces are aligned, and away from one another. -/
structure Fits (g : Legend) (group : Group) : Prop where
  whole : group.toItem.Whole
  align_le : ∀ p ∈ group.pieces, p.2.align ≤ group.align
  aligned : ∀ p ∈ group.pieces, p.2.align.bytes ∣ p.1
  inside : ∀ p ∈ group.pieces, p.1 + p.2.size ≤ group.size
  away : group.pieces.Pairwise g.Away

theorem slots_toItem (group : Group) :
    group.toItem.leaves.map (·.slot) =
      ((group.pieces.map (·.2)).flatMap (·.leaves)).map (·.slot) := by
  show (Legend.mergedLeaves group.pieces).map _ = _
  unfold Legend.mergedLeaves
  rw [List.map_flatMap, List.flatMap_map, List.map_flatMap]
  apply List.flatMap_congr
  intro p _
  rw [List.map_map]
  rfl

theorem mem_toItem {group : Group} {leaf : Leaf} (h : leaf ∈ group.toItem.leaves) :
    ∃ p ∈ group.pieces, ∃ inner ∈ p.2.leaves, leaf.packs = inner.packs := by
  obtain ⟨p, piece, member⟩ := List.mem_flatMap.mp h
  obtain ⟨inner, listed, rfl⟩ := List.mem_map.mp member
  exact ⟨p, piece, inner, listed, rfl⟩

end Group

/-- Items merged into groups realize the same parts. -/
theorem Realizes.merge {packs : Array Pack} {first base : Nat} {parts : List Part}
    {items : List Item} (h : Realizes packs first base parts items) (groups : List Group)
    (perm : (groups.flatMap fun group => group.pieces.map (·.2)).Perm items)
    (fits : ∀ group ∈ groups, group.Fits (Legend.of packs base parts)) :
    Realizes packs first base parts (groups.map Group.toItem) where
  slots := by
    refine List.Perm.trans (List.Perm.of_eq ?_) (((perm.flatMap_right _).map _).trans h.slots)
    rw [List.flatMap_map, List.map_flatMap, List.flatMap_assoc, List.map_flatMap]
    exact List.flatMap_congr fun group _ => group.slots_toItem
  sound := by
    intro item member
    obtain ⟨group, listed, rfl⟩ := List.mem_map.mp member
    have fit := fits group listed
    have sound (p : Nat × Item) (piece : p ∈ group.pieces) :
        p.2.Sound packs first (Legend.of packs base parts) :=
      h.sound p.2 (perm.mem_iff.mp (List.mem_flatMap.mpr ⟨group, listed,
        List.mem_map_of_mem piece⟩))
    refine ⟨fit.whole, Legend.Arranged.merge (fun p piece => ⟨(sound p piece).arranged,
      fit.align_le p piece, fit.aligned p piece, fit.inside p piece⟩) fit.away,
      fun leaf inner => ?_, fun leaf inner id outer => ?_⟩
    · obtain ⟨p, piece, own, inside, same⟩ := Group.mem_toItem inner
      rw [same]
      exact (sound p piece).linked own inside
    · obtain ⟨p, piece, own, inside, same⟩ := Group.mem_toItem inner
      exact (sound p piece).fresh own inside id (same ▸ outer)
  separate := by
    have pairs := (perm.pairwise_iff Item.Separate.symm).mpr h.separate
    refine List.pairwise_map.mpr ((List.pairwise_flatMap.mp pairs).2.imp fun apart => ?_)
    intro l here m there id outer outer'
    obtain ⟨p, piece, own, inside, same⟩ := Group.mem_toItem here
    obtain ⟨q, piece', own', inside', same'⟩ := Group.mem_toItem there
    exact apart p.2 (List.mem_map_of_mem piece) q.2 (List.mem_map_of_mem piece') own inside own'
      inside' id (same ▸ outer) (same' ▸ outer')

end PackedLayout
