import Mathlib.Algebra.GroupWithZero.Nat
import PackedLayout.Proofs.Anew
import PackedLayout.Proofs.ArmPlaces

/-!
# Collecting arms in another order

The arm of a type is what the type puts into a draft of its own, with slots and packs that come
after those of the arms before it. So the arms of a variant are the same in every order, but for
these numbers, and they have room in the draft in every order or in none:

- `Lone`: an arm that is laid out on its own;
- `inOrder`: what some arms have, one after the other;
- `collectArms_eq_ok`: the arms that are collected are the lone arms in order;
- `shuffled_numbered`: in another order they are shuffled.
-/

namespace PackedLayout

variable {w : Width} {span : Span} {layOut : TypeLayout} {id : TypeId} {ids : List TypeId}
  {draft inner : Draft} {cache : Cache} {arms : List Arm}

/-! ## One arm -/

/-- An arm that is laid out on its own. -/
structure Lone where
  part : Draft
  arm : Arm

/-- The arm of a type, where `layOut` puts in types. -/
structure Lone.Of (w : Width) (layOut : TypeLayout) (id : TypeId) (lone : Lone) : Prop where
  laid : (layOut id .bare .empty).1 = .ok lone.part
  made : Arm.of? w 0 lone.part.container.items = some lone.arm

theorem Arm.of?_reindex (index : Nat) (fields : List Item) :
    of? w index fields = (of? w 0 fields).map fun arm => { arm with index } := by
  unfold of?
  rw [Option.map_map]
  rfl

theorem Container.exists_items {container : Container} (arm : container.isArm = true) :
    ∃ items, container = .arm items := by
  cases container with
  | body zones => contradiction
  | arm items => exact ⟨items, rfl⟩

/-- An arm comes behind an empty one as it is, under new numbers. -/
theorem Draft.join?_arm_eq_some {part now : Draft} {items : List Item}
    (empty : draft.container = .arm []) (arm : part.container = .arm items) :
    draft.join? w part = some now ↔ draft.slots + part.slots ≤ maxSlots ∧
      now = draft.joined part (.arm (items.map (Item.rename draft.numbering))) := by
  have behind : draft.container.join? w draft.numbering part.container =
      some (.arm (items.map (Item.rename draft.numbering))) := by
    rw [empty, arm]
    show (Container.arm []).putAll? w _ = _
    rw [Container.putAll?_arm, List.append_nil, ← List.map_reverse, List.reverse_reverse]
  rw [join?_eq_some, behind]
  constructor
  · rintro ⟨fits, _, ⟨⟩, rfl⟩
    exact ⟨fits, rfl⟩
  · rintro ⟨fits, rfl⟩
    exact ⟨fits, _, rfl, rfl⟩

/-- What a type puts into an arm of its own is in an arm. -/
theorem exists_items_of_bare (framed : FramedTypes w layOut) {part : Draft}
    (laid : (layOut id .bare cache).1 = .ok part) : ∃ items, part.container = .arm items :=
  Container.exists_items
    ((framed .bare id).kind _ _ _ (finished_eq_some.mpr (Prod.ext laid rfl)))

/-- A type puts into an empty arm of a draft what it puts into an arm of its own. -/
theorem layOut_eq_ok (framed : FramedTypes w layOut) (steady : ∀ id draft, Steady (layOut id draft))
    (room : draft.slots ≤ maxSlots) (empty : draft.container = .arm []) {after : Draft} :
    (layOut id draft cache).1 = .ok after ↔
      ∃ part items, (layOut id .bare .empty).1 = .ok part ∧ part.container = .arm items ∧
        draft.slots + part.slots ≤ maxSlots ∧
        after = draft.joined part (.arm (items.map (Item.rename draft.numbering))) := by
  have bare := (steady id .bare).run_eq cache .empty
  rw [(framed draft id).run_eq_ok room]
  constructor
  · rintro ⟨part, laid, joined⟩
    obtain ⟨items, arm⟩ := exists_items_of_bare framed laid
    exact ⟨part, items, bare.trans laid, arm, (Draft.join?_arm_eq_some empty arm).mp joined⟩
  · rintro ⟨part, items, laid, arm, fits⟩
    exact ⟨part, bare.symm.trans laid, (Draft.join?_arm_eq_some empty arm).mpr fits⟩

/-- The next arm that is collected is a lone one, under the numbers that come next. -/
theorem collectArms_cons (framed : FramedTypes w layOut)
    (steady : ∀ id draft, Steady (layOut id draft))
    (room : draft.slots ≤ maxSlots) (empty : draft.container = .arm []) {index : Nat}
    {collected : List Arm} {r : List Arm × Draft} :
    (collectArms w span layOut index collected (id :: ids) draft cache).1 = .ok r ↔
      ∃ lone : Lone, lone.Of w layOut id ∧ draft.slots + lone.part.slots ≤ maxSlots ∧
        (collectArms w span layOut (index + 1)
          ({ lone.arm.rename draft.numbering with index } :: collected) ids
          (draft.joined lone.part (.arm [])) .empty).1 = .ok r := by
  have next (collected : List Arm) (draft : Draft) (cache : Cache) :
      (collectArms w span layOut (index + 1) collected ids draft cache).1 =
        (collectArms w span layOut (index + 1) collected ids draft .empty).1 :=
    Steady.run_eq (agree_collectArms ids _ _ draft fun id _ => steady id) .empty cache
  have content (items : List Item) :
      (Container.arm (items.map (Item.rename draft.numbering))).items =
        (Container.arm items).items.map (Item.rename draft.numbering) := List.map_reverse.symm
  have made (items : List Item) : Arm.of? w index (Container.items (.arm
      (items.map (Item.rename draft.numbering)))) = (Arm.of? w 0 (Container.items (.arm items))).map
        fun arm => { arm.rename draft.numbering with index } := by
    rw [content, Arm.of?_rename, Arm.of?_reindex, Option.map_map]
    rfl
  conv_lhs => unfold collectArms
  rw [run_bind_eq_ok]
  constructor
  · rintro ⟨after, laid, rest⟩
    obtain ⟨part, items, own, arm, fits, rfl⟩ := (layOut_eq_ok framed steady room empty).mp laid
    dsimp only [Draft.exchange, Draft.joined] at rest
    rw [made] at rest
    cases alone : Arm.of? w 0 (Container.items (.arm items)) with
    | none =>
      rw [alone] at rest
      contradiction
    | some lone =>
      rw [alone] at rest
      exact ⟨⟨part, lone⟩, ⟨own, arm ▸ alone⟩, fits, (next _ _ _).symm.trans rest⟩
  · rintro ⟨⟨part, lone⟩, ⟨own, alone⟩, fits, rest⟩
    obtain ⟨items, arm⟩ := exists_items_of_bare framed own
    rw [arm] at alone
    refine ⟨_, (layOut_eq_ok framed steady room empty).mpr ⟨part, items, own, arm, fits, rfl⟩, ?_⟩
    dsimp only [Draft.exchange, Draft.joined]
    rw [made, alone]
    exact (next _ _ _).trans rest

/-! ## All arms -/

section InOrder

variable {α β γ : Type} {given : β → Nat × Nat} {own : Renaming → β → α}

/-- What some arms have, one after the other, each under numbers that come after those of the arms
before it. An arm has the slots and the packs that are given. -/
def inOrder (given : β → Nat × Nat) (own : Renaming → β → α) : Nat → Nat → List β → List α
  | _, _, [] => []
  | slots, packs, x :: rest => own (.shift slots packs) x ::
    inOrder given own (slots + (given x).1) (packs + (given x).2) rest

theorem map_inOrder (g : α → γ) (slots packs : Nat) (xs : List β) :
    (inOrder given own slots packs xs).map g =
      inOrder given (fun f x => g (own f x)) slots packs xs := by
  induction xs generalizing slots packs with
  | nil => rfl
  | cons x rest ih => exact congrArg (g (own _ x) :: ·) (ih _ _)

/-- What does not depend on numbers is the same everywhere. -/
theorem inOrder_plain (plain : β → α) (slots packs : Nat) (xs : List β) :
    inOrder given (fun _ => plain) slots packs xs = xs.map plain := by
  induction xs generalizing slots packs with
  | nil => rfl
  | cons x rest ih => exact congrArg (plain x :: ·) (ih _ _)

end InOrder

/-- The slots and packs of an arm. -/
def Lone.given (lone : Lone) : Nat × Nat := (lone.part.slots, lone.part.packs.size)

/-- Lone arms of some types in order, numbered from `index` on. -/
def numbered (lone : TypeId → Lone) (index slots packs : Nat) (ids : List TypeId) : List Arm :=
  ((inOrder (fun id => (lone id).given) (fun f id => (lone id).arm.rename f) slots packs ids).zipIdx
    index).map fun (arm, index) => { arm with index }

variable {lone : TypeId → Lone} {index slots packs : Nat}

/-- What does not depend on the position of an arm. -/
theorem map_numbered {α : Type} {g : Arm → α}
    (same : ∀ (arm : Arm) index, g { arm with index } = g arm) :
    (numbered lone index slots packs ids).map g =
      inOrder (fun id => (lone id).given) (fun f id => g ((lone id).arm.rename f)) slots packs
        ids := by
  rw [numbered, List.map_map, ← map_inOrder]
  conv_rhs => rw [← List.zipIdx_map_fst index (inOrder _ _ _ _ _), List.map_map]
  exact List.map_congr_left fun p _ => same p.1 p.2

/-- Every arm that is collected is laid out on its own. -/
theorem exists_lone (framed : FramedTypes w layOut) (steady : ∀ id draft, Steady (layOut id draft))
    (room : draft.slots ≤ maxSlots) (empty : draft.container = .arm []) {collected : List Arm}
    {r : List Arm × Draft}
    (done : (collectArms w span layOut index collected ids draft cache).1 = .ok r) :
    ∀ id ∈ ids, ∃ lone : Lone, lone.Of w layOut id := by
  induction ids generalizing index collected draft cache with
  | nil => exact fun _ absent => absurd absent List.not_mem_nil
  | cons id rest ih =>
    obtain ⟨lone, own, fits, done⟩ := (collectArms_cons framed steady room empty).mp done
    intro other member
    obtain rfl | later := List.mem_cons.mp member
    · exact ⟨lone, own⟩
    · exact ih fits rfl done other later

/-- A type has one lone arm. -/
theorem Lone.Of.unique {lone other : Lone} (own : lone.Of w layOut id)
    (own' : other.Of w layOut id) :
    lone = other := by
  obtain ⟨part, arm⟩ := lone
  obtain ⟨part', arm'⟩ := other
  cases own.laid.symm.trans own'.laid
  cases own.made.symm.trans own'.made
  rfl

/-- The arms that are collected are the lone arms in order, if all of their slots have room. -/
theorem collectArms_eq_ok (framed : FramedTypes w layOut)
    (steady : ∀ id draft, Steady (layOut id draft))
    (own : ∀ id ∈ ids, (lone id).Of w layOut id) (room : draft.slots ≤ maxSlots)
    (empty : draft.container = .arm []) {collected : List Arm} {r : List Arm × Draft} :
    (collectArms w span layOut index collected ids draft cache).1 = .ok r ↔
      draft.slots + (ids.map fun id => (lone id).part.slots).sum ≤ maxSlots ∧
        r = (collected.reverse ++ numbered lone index draft.slots draft.packs.size ids,
          ids.foldl (fun draft id => draft.joined (lone id).part (.arm [])) draft) := by
  induction ids generalizing index collected draft cache with
  | nil =>
    have run : (collectArms w span layOut index collected [] draft cache).1 =
      .ok (collected.reverse ++ [], draft) := by
        rw [List.append_nil]
        rfl
    rw [run, Except.ok.injEq, eq_comm]
    exact ⟨fun same => ⟨room, same⟩, And.right⟩
  | cons id rest ih =>
    have first := own id List.mem_cons_self
    have later : ∀ other ∈ rest, (lone other).Of w layOut other :=
      fun other member => own other (List.mem_cons_of_mem _ member)
    have size : (draft.joined (lone id).part (.arm [])).packs.size =
        draft.packs.size + (lone id).part.packs.size := by
      simp [Draft.joined, copied]
    rw [collectArms_cons framed steady room empty, List.map_cons, List.sum_cons, ← Nat.add_assoc]
    constructor
    · rintro ⟨other, of, fits, done⟩
      obtain rfl := of.unique first
      obtain ⟨all, same⟩ := (ih later fits rfl).mp done
      refine ⟨all, same.trans (Prod.ext ?_ rfl)⟩
      rw [List.reverse_cons, List.append_assoc, size]
      rfl
    · rintro ⟨all, rfl⟩
      have fits : draft.slots + (lone id).part.slots ≤ maxSlots :=
        Nat.le_trans (Nat.le_add_right _ _) all
      refine ⟨lone id, first, fits, (ih later fits rfl).mpr ⟨all, Prod.ext ?_ rfl⟩⟩
      rw [List.reverse_cons, List.append_assoc, size]
      rfl

theorem Arm.blank_rename (f : Renaming) (arm : Arm) : (arm.rename f).blank = arm.blank := by
  have leaf (leaf : Leaf) : (leaf.rename f).rename .blank = leaf.rename .blank :=
    congrArg (fun packs => { leaf with slot := 0, packs }) List.map_map
  have item (item : Item) : (item.rename f).rename .blank = item.rename .blank := by
    refine congrArg (Item.mk item.size item.align) (List.map_map.trans ?_)
    exact List.map_congr_left fun inner _ => leaf inner
  refine congrArg (Arm.mk 0 arm.counts arm.required) (List.map_map.trans ?_)
  apply List.map_congr_left
  intro field _
  cases field with
  | none => rfl
  | some inner => exact congrArg some (item inner)

/-- In another order, from wherever, the arms are shuffled. -/
theorem shuffled_numbered {ids' : List TypeId} (perm : ids.Perm ids') (lone : TypeId → Lone)
    (index slots packs : Nat) :
    Shuffled (numbered lone index slots packs ids) (numbered lone index slots packs ids') := by
  have plain (ids : List TypeId) : (numbered lone index slots packs ids).map Arm.blank =
      ids.map fun id => (lone id).arm.blank := by
    rw [map_numbered fun _ _ => rfl]
    simp only [Arm.blank_rename]
    exact inOrder_plain _ _ _ _
  unfold Shuffled
  rw [plain, plain]
  exact perm.map _

end PackedLayout
