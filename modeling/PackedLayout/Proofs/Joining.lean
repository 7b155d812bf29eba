import PackedLayout.Proofs.Drafting
import PackedLayout.Proofs.Renaming

/-!
# Drafts behind one another

A draft can be put behind another one as a whole: its slots and packs come after those of the one in
front, and its items are put into the container in front under new numbers.

- `Container.join?`, `Draft.join?`: a draft with another one behind it;
- `Container.join?_putAll?`: items are put in behind just as they are put in on their own;
- `Draft.join?_assoc`: what comes behind two drafts comes behind their join.
-/

namespace PackedLayout

/-! ## One draft behind another -/

def Container.putAll? (w : Width) (items : List Item) (container : Container) : Option Container :=
  items.foldlM (fun container item => container.put? w item) container

namespace Container

def isArm : Container → Bool
  | body _ => false
  | arm _ => true

/-- The container with what another one holds behind, under new numbers. An arm is put in item by
item; a body comes behind an empty one only. -/
def join? (w : Width) (f : Renaming) (before : Container) : Container → Option Container
  | arm items => before.putAll? w (items.reverse.map (Item.rename f))
  | body zones => if before = emptyBody then some (body (zones.map (Zone.rename f))) else none

end Container

namespace Draft

/-- The numbers of what comes behind a draft. -/
def numbering (draft : Draft) : Renaming := .shift draft.slots draft.packs.size

/-- The tables of two drafts one after the other. -/
def joined (before part : Draft) (container : Container) : Draft where
  slots := before.slots + part.slots
  packs := copied before.packs part.packs
  variants := before.variants ++ part.variants.map (VariantLayout.renumber before.slots)
  warnings := before.warnings ++ part.warnings
  container

/-- A draft with another one behind it, if there is room. -/
def join? (w : Width) (before part : Draft) : Option Draft :=
  if before.slots + part.slots ≤ maxSlots then
    (before.container.join? w before.numbering part.container).map (before.joined part)
  else none

end Draft

variable {w : Width} {span : Span} {before part third : Draft}

/-! ## Containers -/

namespace Container

variable {f : Renaming} {items others : List Item} {item : Item} {container : Container}

theorem putAll?_append :
    container.putAll? w (items ++ others) = (container.putAll? w items).bind (putAll? w others) :=
  List.foldlM_append

theorem putAll?_arm : (arm items).putAll? w others = some (arm (others.reverse ++ items)) := by
  induction others generalizing items with
  | nil => rfl
  | cons item rest ih =>
    show (arm (item :: items)).putAll? w rest = _
    rw [ih, List.reverse_cons, List.append_assoc]
    rfl

theorem isArm_put? {after : Container} (put : container.put? w item = some after) :
    after.isArm = container.isArm := by
  cases container with
  | arm items =>
    cases put
    rfl
  | body zones =>
    obtain ⟨zone, _, rfl⟩ := Option.map_eq_some_iff.mp put
    rfl

theorem isArm_putAll? {after : Container} (put : container.putAll? w items = some after) :
    after.isArm = container.isArm := by
  induction items generalizing container with
  | nil =>
    cases put
    rfl
  | cons item rest ih =>
    obtain ⟨next, first, later⟩ := Option.bind_eq_some_iff.mp put
    rw [ih later, isArm_put? first]

theorem push?_rename (zone : Zone) (item : Item) :
    (zone.rename f).push? w (item.rename f) = (zone.push? w item).map (Zone.rename f) := by
  show (w.checked (zone.size + item.size)).map _ = Option.map _ (Option.map _ _)
  rw [Option.map_map]
  congr 1
  funext size
  show Zone.mk size _ = Zone.mk size _
  rw [List.map_append, List.map_map]
  congr 2
  exact List.map_map

/-- An item is put in behind just as it is put in on its own. -/
theorem join?_put? (before : Container) (part : Container) (item : Item) :
    (before.join? w f part).bind (put? w (item.rename f)) =
      (part.put? w item).bind (before.join? w f) := by
  cases part with
  | arm items =>
    show _ = before.putAll? w ((item :: items).reverse.map _)
    rw [List.reverse_cons, List.map_append, putAll?_append]
    refine congrArg (Option.bind _) (funext fun container => ?_)
    exact (Option.bind_fun_some (container.put? w (item.rename f))).symm
  | body zones =>
    show (if _ then _ else none : Option Container).bind _ = (Option.map _ _).bind _
    rw [Option.bind_map]
    by_cases fresh : before = emptyBody
    · rw [if_pos fresh, Option.bind_some]
      show (((zones.map (Zone.rename f)).get item.align).push? w (item.rename f)).map _ = _
      rw [PerClass.get_map, push?_rename, Option.map_map, Option.map_eq_bind]
      refine congrArg _ (funext fun zone => ?_)
      show some _ = if _ then _ else none
      rw [if_pos fresh]
      cases item with | mk size align leaves => cases align <;> rfl
    · rw [if_neg fresh, Option.bind_none, eq_comm, Option.bind_eq_none_iff]
      exact fun zone _ => if_neg fresh

theorem join?_putAll? (before : Container) (part : Container) (items : List Item) :
    (before.join? w f part).bind (putAll? w (items.map (Item.rename f))) =
      (part.putAll? w items).bind (before.join? w f) := by
  induction items generalizing part with
  | nil => exact Option.bind_fun_some (before.join? w f part)
  | cons item rest ih =>
    show (before.join? w f part).bind (fun c => (c.put? w (item.rename f)).bind _) =
      ((part.put? w item).bind _).bind _
    rw [← Option.bind_assoc, join?_put?, Option.bind_assoc, Option.bind_assoc]
    exact congrArg _ (funext fun next => ih next)

end Container

/-! ## Numbers -/

theorem PackId.renumber_renumber (packs packs' : Nat) (id : PackId) :
    (id.renumber packs).renumber packs' = id.renumber (packs' + packs) := by
  show PackId.mk (id.index + packs + packs') = ⟨id.index + (packs' + packs)⟩
  rw [Nat.add_assoc, Nat.add_comm packs]

theorem Leaf.rename_shift (leaf : Leaf) (slots packs slots' packs' : Nat) :
    (leaf.rename (.shift slots packs)).rename (.shift slots' packs') =
      leaf.rename (.shift (slots' + slots) (packs' + packs)) := by
  unfold rename Renaming.shift
  simp only [List.map_map, Leaf.mk.injEq, true_and]
  exact ⟨by omega, List.map_congr_left fun id _ => id.renumber_renumber packs packs'⟩

theorem Item.rename_shift (item : Item) (slots packs slots' packs' : Nat) :
    (item.rename (.shift slots packs)).rename (.shift slots' packs') =
      item.rename (.shift (slots' + slots) (packs' + packs)) := by
  refine congrArg (Item.mk item.size item.align) ?_
  rw [rename, List.map_map]
  exact List.map_congr_left fun leaf _ => leaf.rename_shift slots packs slots' packs'

theorem Pack.renumber_renumber (packs packs' : Nat) (pack : Pack) :
    (pack.renumber packs).renumber packs' = pack.renumber (packs' + packs) := by
  unfold renumber
  simp only [Option.map_map, Pack.mk.injEq, true_and]
  exact congrArg (fun g => pack.parent.map g) (funext (PackId.renumber_renumber packs packs'))

theorem VariantLayout.renumber_renumber (slots slots' : Nat) (v : VariantLayout) :
    (v.renumber slots).renumber slots' = v.renumber (slots' + slots) := by
  unfold renumber
  simp only [VariantLayout.mk.injEq, and_true]
  omega

theorem copied_copied (first second third : Array Pack) :
    copied first (copied second third) = copied (copied first second) third := by
  unfold copied
  simp only [Array.map_append, Array.map_map, Array.append_assoc, Array.size_append, Array.size_map]
  congr 3
  funext pack
  exact pack.renumber_renumber second.size first.size

namespace Draft

theorem toOption_put (item : Item) (draft : Draft) :
    (draft.put w span item).toOption =
      (draft.container.put? w item).map fun container => { draft with container } := by
  unfold put
  cases draft.container.put? w item <;> rfl

theorem toOption_putZones (zones : PerClass Zone) (draft : Draft) :
    (draft.putZones w span zones).toOption =
      (draft.container.putAll? w (zoneItems zones Alignment.descending)).map fun container =>
        { draft with container } := by
  unfold putZones
  generalize Alignment.descending = classes
  induction classes generalizing draft with
  | nil => rfl
  | cons a rest ih =>
    rw [List.foldlM_cons, zoneItems_cons]
    by_cases empty : (zones.get a).size = 0
    · rw [if_pos empty, if_pos empty]
      exact ih draft
    · rw [if_neg empty, if_neg empty]
      have into := @toOption_put w span ((zones.get a).toItem a) draft
      show _ = ((draft.container.put? w _).bind _).map _
      unfold put at into ⊢
      cases draft.container.put? w ((zones.get a).toItem a) with
      | none => rfl
      | some container => exact ih { draft with container }

theorem join?_eq_some {now : Draft} :
    before.join? w part = some now ↔ before.slots + part.slots ≤ maxSlots ∧
      ∃ container, before.container.join? w before.numbering part.container = some container ∧
        before.joined part container = now := by
  unfold join?
  split
  · rename_i room
    rw [Option.map_eq_some_iff]
    exact ⟨fun h => ⟨room, h⟩, And.right⟩
  · rename_i full
    exact ⟨nofun, fun h => absurd h.1 full⟩

theorem join?_of_arm {items : List Item} (room : before.slots + part.slots ≤ maxSlots)
    (arm : part.container = .arm items) :
    before.join? w part = (before.container.putAll? w
      (items.reverse.map (Item.rename before.numbering))).map (before.joined part) := by
  unfold join?
  rw [if_pos room, arm]
  rfl

/-- An arm with nothing in it. -/
def bare : Draft := { container := .arm [] }

theorem join?_bare (room : before.slots ≤ maxSlots) : before.join? w bare = some before := by
  rw [@join?_of_arm w before bare [] room rfl]
  refine congrArg some ?_
  simp [joined, bare, copied]

theorem joined_joined (container other last : Container) :
    (before.joined part container).joined third last =
      before.joined (part.joined third other) last := by
  unfold joined
  simp only [Draft.mk.injEq, and_true]
  refine ⟨Nat.add_assoc _ _ _, (copied_copied _ _ _).symm, ?_, Array.append_assoc.symm ▸ rfl⟩
  rw [Array.map_append, Array.map_map, ← Array.append_assoc]
  congr 2
  exact funext fun v => (v.renumber_renumber part.slots before.slots).symm

/-- What comes behind two drafts comes behind their join. -/
theorem join?_assoc {items : List Item} (arm : third.container = .arm items) :
    (before.join? w part).bind (fun now => now.join? w third) =
      (part.join? w third).bind (before.join? w) := by
  by_cases room : before.slots + (part.slots + third.slots) ≤ maxSlots
  · have numbered (c : Container) :
        items.reverse.map (Item.rename (before.joined part c).numbering) =
          (items.reverse.map (Item.rename part.numbering)).map (Item.rename before.numbering) := by
      rw [List.map_map]
      refine List.map_congr_left fun item _ => Eq.symm ((item.rename_shift _ _ _ _).trans ?_)
      rw [numbering, joined, copied, Array.size_append, Array.size_map]
    have first : before.join? w part = (before.container.join? w before.numbering
        part.container).map (before.joined part) := if_pos (by omega)
    have second (c : Container) : (before.joined part c).join? w third =
        (c.putAll? w (items.reverse.map (Item.rename (before.joined part c).numbering))).map
          ((before.joined part c).joined third) :=
      join?_of_arm (show before.slots + part.slots + third.slots ≤ maxSlots by omega) arm
    have inner : part.join? w third = (part.container.putAll? w
        (items.reverse.map (Item.rename part.numbering))).map (part.joined third) :=
      join?_of_arm (by omega) arm
    have outer (c : Container) : before.join? w (part.joined third c) =
        (before.container.join? w before.numbering c).map
          (before.joined (part.joined third c)) := if_pos room
    rw [first, inner, Option.bind_map, Option.bind_map]
    have same := congrArg (Option.map (before.joined (part.joined third third.container)))
      (Container.join?_putAll? (w := w) (f := before.numbering) before.container part.container
        (items.reverse.map (Item.rename part.numbering)))
    rw [Option.map_bind, Option.map_bind] at same
    refine Eq.trans (congrArg _ (funext fun c => ?_)) (same.trans
      (congrArg _ (funext fun c => ?_)))
    · refine (second c).trans ?_
      rw [numbered]
      exact congrArg (Option.map · _) (funext fun d => joined_joined c third.container d)
    · refine Eq.trans ?_ (outer c).symm
      exact congrArg (Option.map · _) (funext fun d =>
        (joined_joined c third.container d).symm.trans (joined_joined c c d))
  · have full (now : Draft) (found : before.join? w part = some now) :
        now.join? w third = none := by
      obtain ⟨_, _, _, rfl⟩ := join?_eq_some.mp found
      exact if_neg (by show ¬(before.slots + part.slots + third.slots ≤ _); omega)
    have full' (now : Draft) (found : part.join? w third = some now) :
        before.join? w now = none := by
      obtain ⟨_, _, _, rfl⟩ := join?_eq_some.mp found
      exact if_neg room
    rw [Option.bind_eq_none_iff.mpr full, Option.bind_eq_none_iff.mpr full']

end Draft

end PackedLayout
