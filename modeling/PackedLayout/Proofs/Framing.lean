import PackedLayout.Proofs.Joining
import PackedLayout.Proofs.Termination

/-!
# Runs with a draft in front

What a type puts into a draft does not depend on what the draft holds: it is what the type puts
into a draft of its own, with slots and packs that come after those of the draft.

- `Framed`: a run with a draft in front comes to what it comes to on its own, with rules for the
  ways in which runs are put together;
- `Framed.inside`: a run that goes on in a container of its own, and comes back;
- `framed_layOutType`: laying out a type is such a run, if it is in an arm or in an array.
-/

namespace PackedLayout

variable {w : Width} {span : Span} {before part : Draft}

/-! ## Runs with a draft in front -/

/-- What a run ends well with. -/
def finished {α : Type} (act : EngineM α) (cache : Cache) : Option (α × Cache) :=
  (act cache).1.toOption.map fun a => (a, (act cache).2)

section Finished

variable {α β : Type} {cache : Cache}

theorem toOption_eq_some {ε : Type} {run : Except ε α} {a : α} :
    run.toOption = some a ↔ run = .ok a := by
  cases run <;> simp [Except.toOption]

theorem finished_bind (act : EngineM α) (next : α → EngineM β) :
    finished (act >>= next) cache = (finished act cache).bind fun r => finished (next r.1) r.2 := by
  unfold finished
  show (ExceptT.bindCont next (act cache).1 (act cache).2).1.toOption.map
    (fun b => (b, (ExceptT.bindCont next (act cache).1 (act cache).2).2)) = _
  cases (act cache).1 <;> rfl

theorem finished_lift (run : Except LayoutError α) :
    finished (liftM run : EngineM α) cache = run.toOption.map fun a => (a, cache) := rfl

theorem finished_pure (a : α) : finished (pure a : EngineM α) cache = some (a, cache) := rfl

theorem finished_throw (e : LayoutError) : finished (throw e : EngineM α) cache = none := rfl

/-- A run over a list can be taken into the engine as a whole or step by step. -/
theorem lift_foldlM (step : β → α → Except LayoutError β) (xs : List α) (b : β) :
    (liftM (xs.foldlM step b) : EngineM β) = xs.foldlM (fun b x => liftM (step b x)) b := by
  induction xs generalizing b with
  | nil => rfl
  | cons x rest ih =>
    rw [List.foldlM_cons, List.foldlM_cons]
    funext cache
    cases ran : step b x with
    | error e => rfl
    | ok next => exact congrFun (ih next) cache

theorem finished_eq_some {act : EngineM α} {a : α} {after : Cache} :
    finished act cache = some (a, after) ↔ act cache = (.ok a, after) := by
  unfold finished
  rcases act cache with ⟨_ | b, c⟩
  · exact ⟨nofun, nofun⟩
  · constructor <;> (intro h; cases h; rfl)

end Finished

/-- With a draft in front, a run comes to what it comes to on its own, behind that draft. It goes on
in the kind of container that it is given. -/
structure Framed (w : Width) (before : Draft) (act act' : Draft → EngineM Draft) : Prop where
  kind : ∀ part cache r, finished (act part) cache = some r →
    r.1.container.isArm = part.container.isArm
  joins : ∀ part cache, (before.join? w part).bind (fun now => finished (act' now) cache) =
    (finished (act part) cache).bind fun r => (before.join? w r.1).map (·, r.2)

namespace Framed

variable {act act' next next' : Draft → EngineM Draft}

theorem throw (e e' : Draft → LayoutError) :
    Framed w before (fun draft => throw (e draft)) (fun draft => throw (e' draft)) where
  kind := nofun
  joins := by
    intro part cache
    simp only [finished_throw, Option.bind_none, Option.bind_eq_none_iff]
    exact fun _ _ => trivial

theorem pure : Framed w before (fun draft => Pure.pure draft) (fun draft => Pure.pure draft) where
  kind := by
    rintro part cache r ⟨⟩
    rfl
  joins := by
    intro part cache
    simp only [finished_pure, Option.bind_some, Option.map_eq_bind]
    rfl

theorem bind (h : Framed w before act act') (h' : Framed w before next next') :
    Framed w before (fun draft => act draft >>= next) (fun draft => act' draft >>= next') where
  kind := by
    intro part cache r done
    rw [finished_bind] at done
    obtain ⟨mid, first, second⟩ := Option.bind_eq_some_iff.mp done
    exact (h'.kind _ _ _ second).trans (h.kind _ _ _ first)
  joins := by
    intro part cache
    simp only [finished_bind]
    rw [← Option.bind_assoc, h.joins, Option.bind_assoc, Option.bind_assoc]
    refine congrArg _ (funext fun r => ?_)
    rw [Option.bind_map]
    exact h'.joins r.1 r.2

/-- A run that does not look at the draft comes first. -/
theorem after {α : Type} {first : EngineM α} {next next' : α → Draft → EngineM Draft}
    (h : ∀ a, Framed w before (next a) (next' a)) :
    Framed w before (fun draft => first >>= fun a => next a draft)
      (fun draft => first >>= fun a => next' a draft) where
  kind := by
    intro part cache r done
    rw [finished_bind] at done
    obtain ⟨mid, _, second⟩ := Option.bind_eq_some_iff.mp done
    exact (h mid.1).kind _ _ _ second
  joins := by
    intro part cache
    simp only [finished_bind]
    rw [Option.bind_assoc]
    cases finished first cache with
    | none => simp
    | some r => exact (h r.1).joins part r.2

theorem foldlM {α : Type} {step step' : Draft → α → EngineM Draft} {xs : List α}
    (each : ∀ x ∈ xs, Framed w before (fun draft => step draft x) (fun draft => step' draft x)) :
    Framed w before (fun draft => xs.foldlM step draft) (fun draft => xs.foldlM step' draft) := by
  induction xs with
  | nil =>
    refine ⟨fun _ _ _ done => by cases done; rfl, fun part _ => ?_⟩
    show _ = (before.join? w part).map _
    cases before.join? w part <;> rfl
  | cons x rest ih =>
    simp only [List.foldlM_cons]
    exact (each x List.mem_cons_self).bind (ih fun y later => each y (List.mem_cons_of_mem _ later))

/-- Puts fail or not, and leave the cache alone. -/
theorem lift {op op' : Draft → Except LayoutError Draft}
    (kind : ∀ part after, op part = .ok after → after.container.isArm = part.container.isArm)
    (joins : ∀ part, (before.join? w part).bind (fun now => (op' now).toOption) =
      (op part).toOption.bind (before.join? w)) :
    Framed w before (fun draft => liftM (op draft)) (fun draft => liftM (op' draft)) where
  kind := by
    intro part cache r done
    cases ran : op part with
    | error e =>
      rw [finished_lift, ran] at done
      contradiction
    | ok after =>
      rw [finished_lift, ran] at done
      cases done
      exact kind part after ran
  joins := by
    intro part cache
    simp only [finished_lift]
    have same := congrArg (Option.map (·, cache)) (joins part)
    rw [Option.map_bind, Option.map_bind] at same
    rw [Option.bind_map]
    exact same

/-- Items are put in, and the tables change. -/
theorem puts {op op' : Draft → Except LayoutError Draft} (items items' : Draft → List Item)
    (change change' : Draft → Draft)
    (run : ∀ draft, (op draft).toOption = (draft.container.putAll? w (items draft)).map
      fun container => { change draft with container })
    (run' : ∀ draft, (op' draft).toOption = (draft.container.putAll? w (items' draft)).map
      fun container => { change' draft with container })
    (slots : ∀ draft, (change draft).slots = draft.slots)
    (moved : ∀ part container, items' (before.joined part container) =
      (items part).map (Item.rename before.numbering))
    (tables : ∀ part container last,
      { change' (before.joined part container) with container := last } =
        before.joined (change part) last) :
    Framed w before (fun draft => liftM (op draft)) (fun draft => liftM (op' draft)) := by
  refine .lift (fun part after done => ?_) fun part => ?_
  · have into := run part
    rw [done] at into
    obtain ⟨container, put, same⟩ := Option.map_eq_some_iff.mp into.symm
    rw [← same]
    exact Container.isArm_putAll? put
  rw [run, Option.bind_map]
  simp only [run']
  by_cases room : before.slots + part.slots ≤ maxSlots
  · have inner (container : Container) : before.join? w { change part with container } =
        (before.container.join? w before.numbering container).map (before.joined (change part)) :=
      if_pos (show before.slots + (change part).slots ≤ maxSlots from slots part ▸ room)
    have same := congrArg (Option.map (before.joined (change part)))
      (Container.join?_putAll? (w := w) (f := before.numbering) before.container part.container
        (items part))
    rw [Option.map_bind, Option.map_bind] at same
    rw [show before.join? w part = _ from if_pos room, Option.bind_map]
    refine Eq.trans (congrArg _ (funext fun container => ?_)) (same.trans
      (congrArg _ (funext fun container => (inner container).symm)))
    show (container.putAll? w (items' (before.joined part container))).map _ = _
    rw [moved]
    exact congrArg (Option.map · _) (funext fun last => tables part container last)
  · rw [show before.join? w part = none from if_neg room, Option.bind_none, eq_comm,
      Option.bind_eq_none_iff]
    exact fun container _ => if_neg
      (show ¬before.slots + (change part).slots ≤ maxSlots from slots part ▸ room)

/-- A run comes to what it comes to in an arm of its own, put behind the draft. -/
theorem alone (h : Framed w before act act') (room : before.slots ≤ maxSlots) (cache : Cache) :
    finished (act' before) cache = (finished (act .bare) cache).bind fun r =>
      (before.join? w r.1).map (·, r.2) := by
  have joins := h.joins .bare cache
  rwa [Draft.join?_bare room, Option.bind_some] at joins

/-- A run ends well if it does so in an arm of its own and what comes of it has room. -/
theorem run_eq_ok (h : Framed w before act act') (room : before.slots ≤ maxSlots) {cache : Cache}
    {after : Draft} :
    (act' before cache).1 = .ok after ↔
      ∃ part, (act .bare cache).1 = .ok part ∧ before.join? w part = some after := by
  have alone := h.alone room cache
  constructor
  · intro done
    rw [finished_eq_some.mpr (Prod.ext done rfl)] at alone
    obtain ⟨r, laid, joined⟩ := Option.bind_eq_some_iff.mp alone.symm
    obtain ⟨now, behind, same⟩ := Option.map_eq_some_iff.mp joined
    obtain rfl : now = after := congrArg Prod.fst same
    exact ⟨r.1, congrArg Prod.fst (finished_eq_some.mp laid), behind⟩
  · rintro ⟨part, laid, joined⟩
    rw [finished_eq_some.mpr (Prod.ext laid rfl), Option.bind_some, joined] at alone
    exact congrArg Prod.fst (finished_eq_some.mp alone)

/-- What a run does may depend on the number of the next slot. -/
theorem atSlots {act act' : Nat → Draft → EngineM Draft}
    (h : ∀ slots, Framed w before (act slots) (act' (slots + before.slots))) :
    Framed w before (fun draft => act draft.slots draft) (fun draft => act' draft.slots draft) where
  kind := fun part => (h part.slots).kind part
  joins := by
    intro part cache
    refine Eq.trans (Option.bind_congr fun now joined => ?_) ((h part.slots).joins part cache)
    obtain ⟨_, _, _, rfl⟩ := Draft.join?_eq_some.mp joined
    show finished (act' (before.slots + part.slots) _) cache = _
    rw [Nat.add_comm]

end Framed

/-! ## Puts -/

namespace Draft

theorem zoneItems_rename (f : Renaming) (zones : PerClass Zone) (classes : List Alignment) :
    zoneItems (zones.map (Zone.rename f)) classes =
      (zoneItems zones classes).map (Item.rename f) := by
  unfold zoneItems
  rw [List.map_map]
  simp only [PerClass.get_map]
  rfl

/-- What is put in whole, with tables of its own, comes behind what is there. -/
theorem framed_join {op : Draft → Except LayoutError Draft} {items : List Item} (third : Draft)
    (arm : third.container = .arm items)
    (joins : ∀ draft, (op draft).toOption = draft.join? w third) :
    Framed w before (fun draft => liftM (op draft)) (fun draft => liftM (op draft)) := by
  refine .lift (fun part after done => ?_) fun part => ?_
  · have found := joins part
    rw [done] at found
    obtain ⟨_, container, put, rfl⟩ := join?_eq_some.mp found.symm
    rw [arm] at put
    exact Container.isArm_putAll? put
  · simp only [joins]
    exact join?_assoc arm

/-- A primitive field as a draft of its own. -/
def single (align : Alignment) (size : Nat) : Draft where
  slots := 1
  container := .arm [⟨size, align, [⟨0, align, 0, []⟩]⟩]

theorem toOption_putLeaf (align : Alignment) (size : Nat) (draft : Draft) :
    (draft.putLeaf w span align size).toOption = draft.join? w (single align size) := by
  unfold putLeaf
  split
  · rename_i room
    have item : Item.rename draft.numbering ⟨size, align, [⟨0, align, 0, []⟩]⟩ =
        ⟨size, align, [⟨draft.slots, align, 0, []⟩]⟩ := by
      simp [Item.rename, Leaf.rename, numbering, Renaming.shift]
    have joined (container : Container) : draft.joined (single align size) container =
        { draft with slots := draft.slots + 1, container } := by
      simp [Draft.joined, single, copied]
    rw [toOption_put, join?_of_arm (show draft.slots + 1 ≤ _ from room) rfl]
    refine Eq.trans ?_ (congrArg (Option.map · _) (funext fun c => (joined c).symm))
    show _ = Option.map _ (((draft.container.put? w _).bind some))
    rw [item, Option.bind_fun_some]
  · rename_i full
    exact (if_neg (show ¬draft.slots + 1 ≤ maxSlots by omega)).symm

theorem framed_putLeaf (align : Alignment) (size : Nat) :
    Framed w before (fun draft => liftM (draft.putLeaf w span align size))
      (fun draft => liftM (draft.putLeaf w span align size)) :=
  framed_join (single align size) rfl (toOption_putLeaf align size)

end Draft

/-- A template as a draft of its own, with each zone as an item. -/
def Template.draft (w : Width) (t : Template) : Draft where
  slots := t.slots
  packs := t.packs
  variants := t.variants
  warnings := t.warnings
  container := .arm (zoneItems (t.sizedZones w) Alignment.descending).reverse

namespace Draft

theorem toOption_embed (t : Template) (draft : Draft) :
    (draft.embed w span t).toOption = draft.join? w (t.draft w) := by
  unfold embed
  split
  · rename_i full
    exact (if_neg (Nat.not_le.mpr full)).symm
  · rename_i room
    rw [join?_of_arm (Nat.not_lt.mp room) rfl]
    have items : zoneItems ((t.renumber draft.slots draft.packs.size).sizedZones w)
        Alignment.descending = (zoneItems (t.sizedZones w) Alignment.descending).map
          (Item.rename draft.numbering) := zoneItems_rename draft.numbering (t.sizedZones w) _
    rw [toOption_putZones, items, List.reverse_reverse]
    rfl

theorem framed_embed (t : Template) :
    Framed w before (fun draft => liftM (draft.embed w span t))
      (fun draft => liftM (draft.embed w span t)) :=
  framed_join (t.draft w) rfl (toOption_embed t)

end Draft

/-! ## Arrays and variants -/

theorem adopt_copied (before packs : Array Pack) (id : PackId) (slots : Nat) (leaf : Leaf) :
    Draft.adopt (id.renumber before.size) (copied before packs)
        (leaf.rename (.shift slots before.size)) =
      copied before (Draft.adopt id packs leaf) := by
  have renumbered : (leaf.rename (.shift slots before.size)).packs =
    leaf.packs.map (PackId.renumber before.size) := rfl
  unfold Draft.adopt
  rw [renumbered]
  cases leaf.packs with
  | nil => rfl
  | cons outer inner =>
    refine Array.ext_getElem? fun i => ?_
    show ((copied before packs).modify (outer.index + before.size) _)[i]? = _
    unfold copied
    rw [Array.getElem?_modify, Array.getElem?_append, Array.getElem?_append]
    by_cases old : i < before.size
    · rw [if_neg (by omega), if_pos old, if_pos old]
    · rw [if_neg old, if_neg old, Array.getElem?_map, Array.getElem?_map, Array.getElem?_modify]
      by_cases here : outer.index = i - before.size
      · rw [if_pos (by omega), if_pos here, Option.map_map, Option.map_map]
        rfl
      · rw [if_neg (by omega), if_neg here]

/-- A new pack adopts behind other packs what it adopts on its own. -/
theorem adopted_copied (before packs : Array Pack) {pack : Pack} (root : pack.parent = none)
    (slots : Nat) (leaves : List Leaf) :
    adopted (copied before packs) pack (leaves.map (Leaf.rename (.shift slots before.size))) =
      copied before (adopted packs pack leaves) := by
  have pushed : (copied before packs).push pack = copied before (packs.push pack) := by
    have plain : pack.renumber before.size = pack := by
      unfold Pack.renumber
      rw [root, Option.map_none, ← root]
    simp [copied, plain]
  have id : (⟨(copied before packs).size⟩ : PackId) = PackId.renumber before.size ⟨packs.size⟩ := by
    simp [copied, PackId.renumber, Nat.add_comm]
  unfold adopted
  rw [pushed, id, List.foldl_map]
  generalize packs.push pack = table
  induction leaves generalizing table with
  | nil => rfl
  | cons leaf rest ih =>
    rw [List.foldl_cons, List.foldl_cons, adopt_copied]
    exact ih _

namespace Draft

/-- One class of an array is put in behind under new numbers. -/
theorem framed_putPack (length : Nat) (align : Alignment) (elementSize : Nat)
    (leaves : List Leaf) :
    Framed w before
      (fun draft => liftM (draft.putPack w span length align elementSize leaves))
      (fun draft => liftM (draft.putPack w span length align elementSize
        (leaves.map (Leaf.rename before.numbering)))) := by
  unfold putPack
  by_cases empty : elementSize = 0
  · simp only [if_pos empty]
    exact .pure
  simp only [if_neg empty]
  cases w.checked (elementSize * length) with
  | none => exact .throw _ _
  | some size =>
    let pack : Pack := { size, elementSize, length, align }
    let change (leaves : List Leaf) (draft : Draft) : Draft :=
      { draft with packs := adopted draft.packs pack leaves }
    let item (leaves : List Leaf) (draft : Draft) : Item :=
      ⟨size, align, leaves.map fun leaf => { leaf with packs := ⟨draft.packs.size⟩ :: leaf.packs }⟩
    have run (leaves : List Leaf) (draft : Draft) :
        ((change leaves draft).put w span (item leaves draft)).toOption =
          (draft.container.putAll? w [item leaves draft]).map fun container =>
            { change leaves draft with container } := by
      rw [toOption_put]
      exact congrArg _ (Option.bind_fun_some _).symm
    refine .puts _ _ (change leaves) (change (leaves.map (Leaf.rename before.numbering)))
      (run leaves) (run (leaves.map (Leaf.rename before.numbering))) (fun _ => rfl)
      (fun part _ => ?_) fun part _ container => ?_
    · have id : (⟨(copied before.packs part.packs).size⟩ : PackId) =
          PackId.renumber before.packs.size ⟨part.packs.size⟩ := by
        simp [copied, PackId.renumber, Nat.add_comm]
      refine congrArg (fun leaves => [Item.mk size align leaves]) ?_
      rw [List.map_map, List.map_map]
      refine List.map_congr_left fun leaf _ => ?_
      exact congrArg (fun id => { leaf.rename before.numbering with
        packs := id :: (leaf.rename before.numbering).packs }) id
    · exact congrArg (fun packs => { before.joined part container with packs })
        (adopted_copied before.packs part.packs (show pack.parent = none from rfl) before.slots
          leaves)

/-- Zones have the same sizes under new numbers. -/
theorem footprint?_rename (f : Renaming) (zones : PerClass Zone) :
    footprint? w (zones.map (Zone.rename f)) = footprint? w zones := by
  unfold footprint?
  simp only [PerClass.get_map]
  rfl

/-- An array is put in behind, given the zones of its element under new numbers. -/
theorem framed_putArray (length : Nat) (element : PerClass Zone) :
    Framed w before (fun draft => liftM (draft.putArray w span length element))
      (fun draft => liftM (draft.putArray w span length
        (element.map (Zone.rename before.numbering)))) := by
  unfold putArray
  rw [footprint?_rename]
  cases footprint? w element with
  | none => exact .throw _ _
  | some footprint =>
    simp only [lift_foldlM, PerClass.get_map]
    exact .foldlM fun a _ => framed_putPack length a (footprint.bytes w a) (element.get a).leaves

/-- A resolved variant is put in behind under new numbers. -/
theorem framed_putVariant (options : Options) (tag arms : Nat) (r : Resolution) :
    Framed w before (fun draft => liftM (draft.putVariant w options span tag arms r))
      (fun draft => liftM (draft.putVariant w options span (tag + before.slots) arms
        (r.rename before.numbering))) := by
  have zones : (r.rename before.numbering).storage.zones w =
      (r.storage.zones w).map (Zone.rename before.numbering) := r.storage.zones_rename
  unfold putVariant
  rw [zones, show (r.rename before.numbering).degradations = r.degradations from rfl]
  split
  · exact .throw _ _
  · let record (tag : Nat) (draft : Draft) : Draft := { draft with
      variants := draft.variants.push
        ⟨tag, arms, r.target, r.layout, r.required, r.isPerfect, span⟩
      warnings := draft.warnings ++ r.degradations.map fun d => (⟨d, span⟩ : Warning) }
    refine .puts (fun _ => zoneItems (r.storage.zones w) Alignment.descending) (fun _ => zoneItems
        ((r.storage.zones w).map (Zone.rename before.numbering)) Alignment.descending)
      (record tag) (record (tag + before.slots))
      (fun draft => toOption_putZones _ (record tag draft))
      (fun draft => toOption_putZones _ (record (tag + before.slots) draft)) (fun _ => rfl)
      (fun _ _ => zoneItems_rename before.numbering _ _) fun part _ last => ?_
    simp only [joined, record, Array.map_push, Array.append_push, Draft.mk.injEq, and_true,
      true_and]
    exact ⟨rfl, Array.ext' (by simp)⟩

end Draft

/-! ## Runs in a container of their own -/

/-- A run that goes on in a container of its own, with a draft in front, and also gives a value,
which is renamed by `g`. -/
structure FramedInside {α : Type} (w : Width) (before : Draft) (clear : Container) (g : α → α)
    (act act' : Draft → EngineM (α × Draft)) : Prop where
  kind : ∀ (part : Draft) (cache : Cache) (r : (α × Draft) × Cache),
    finished (act { part with container := clear }) cache = some r →
      r.1.2.container.isArm = clear.isArm
  joins : ∀ (part : Draft) (cache : Cache),
    (Draft.join? w { before with container := clear } { part with container := clear }).bind
        (fun now => finished (act' now) cache) =
      (finished (act { part with container := clear }) cache).bind fun r =>
        (Draft.join? w { before with container := clear } r.1.2).map fun now =>
          ((g r.1.1, now), r.2)

/-- The containers that types are put into on their own. -/
inductive Container.Clear : Container → Prop
  | body : Clear .emptyBody
  | arm : Clear (.arm [])

theorem Container.join?_body {f : Renaming} (zones : PerClass Zone) :
    emptyBody.join? w f (body zones) = some (body (zones.map (Zone.rename f))) := by
  simp [join?]

namespace Container.Clear

variable {clear : Container} {f : Renaming}

theorem join?_self (h : clear.Clear) : clear.join? w f clear = some clear := by
  cases h with
  | body => exact join?_body _
  | arm => rfl

theorem exists_join? (h : clear.Clear) {part : Container} (same : part.isArm = clear.isArm) :
    ∃ container, clear.join? w f part = some container := by
  cases h with
  | body =>
    cases part with
    | body zones => exact ⟨_, join?_body zones⟩
    | arm items => contradiction
  | arm =>
    cases part with
    | body zones => contradiction
    | arm items => exact ⟨_, putAll?_arm⟩

end Container.Clear

section

variable {clear : Container}

/-- What comes back from a container of its own is put behind as a whole. -/
theorem Draft.join?_back (empty : clear.Clear) {inner : Draft}
    (same : inner.container.isArm = clear.isArm) (container : Container) :
    before.join? w { inner with container } =
      (Draft.join? w { before with container := clear } inner).bind fun now =>
        (before.container.join? w before.numbering container).map fun container =>
          { now with container } := by
  obtain ⟨own, joined⟩ := empty.exists_join? (w := w) (f := before.numbering) same
  by_cases room : before.slots + inner.slots ≤ maxSlots
  · have alone : Draft.join? w { before with container := clear } inner =
        (clear.join? w before.numbering inner.container).map
          (Draft.joined { before with container := clear } inner) := if_pos room
    rw [alone, joined]
    exact if_pos room
  · have alone : Draft.join? w { before with container := clear } inner = none := if_neg room
    rw [alone]
    exact if_neg room

/-- Nothing in a clear container stays clear behind another one. -/
theorem Draft.container_of_join?_clear (empty : clear.Clear) {now : Draft}
    (joined : Draft.join? w { before with container := clear } { part with container := clear } =
      some now) : now.container = clear := by
  obtain ⟨_, container, behind, rfl⟩ := Draft.join?_eq_some.mp joined
  exact Option.some.inj (behind.symm.trans empty.join?_self)

/-- A run goes on in a container of its own, and comes back. -/
theorem Framed.inside {α : Type} (empty : clear.Clear) {g : α → α}
    {act act' : Draft → EngineM (α × Draft)} {next next' : α → Draft → EngineM Draft}
    (h : FramedInside w before clear g act act')
    (h' : ∀ a, Framed w before (next a) (next' (g a))) :
    Framed w before
      (fun draft => act { draft with container := clear } >>= fun r =>
        next r.1 { r.2 with container := draft.container })
      (fun draft => act' { draft with container := clear } >>= fun r =>
        next' r.1 { r.2 with container := draft.container }) where
  kind := by
    intro part cache r done
    rw [finished_bind] at done
    obtain ⟨mid, _, second⟩ := Option.bind_eq_some_iff.mp done
    exact (h' mid.1.1).kind { mid.1.2 with container := part.container } _ _ second
  joins := by
    intro part cache
    -- the container that is left meanwhile, and how the run goes on once that is behind
    let behind := before.container.join? w before.numbering part.container
    let last (container : Container) (r : (α × Draft) × Cache) : Option (Draft × Cache) :=
      finished (next' r.1.1 { r.1.2 with container }) r.2
    simp only [finished_bind]
    calc (before.join? w part).bind (fun now =>
          (finished (act' { now with container := clear }) cache).bind fun r =>
            finished (next' r.1.1 { r.1.2 with container := now.container }) r.2)
      _ = ((Draft.join? w { before with container := clear }
            { part with container := clear }).bind fun now =>
              finished (act' now) cache).bind fun r => behind.bind (last · r) := by
        have start := @Draft.join?_back w before clear empty { part with container := clear } rfl
          part.container
        refine (congrArg (Option.bind · _) start).trans ?_
        rw [Option.bind_assoc, Option.bind_assoc]
        refine Option.bind_congr fun now joined => ?_
        obtain ⟨slots, packs, variants, warnings, own⟩ := now
        obtain rfl : own = clear := Draft.container_of_join?_clear empty joined
        rw [Option.bind_map]
        exact Option.bind_comm (f := last) behind
          (finished (act' ⟨slots, packs, variants, warnings, own⟩) cache)
      _ = (finished (act { part with container := clear }) cache).bind fun r =>
            (before.join? w { r.1.2 with container := part.container }).bind fun now =>
              finished (next' (g r.1.1) now) r.2 := by
        rw [h.joins part cache, Option.bind_assoc]
        refine Option.bind_congr fun r done => ?_
        rw [Draft.join?_back empty (h.kind part cache r done) part.container, Option.bind_map,
          Option.bind_assoc]
        refine Option.bind_congr fun now _ => ?_
        rw [Option.bind_map]
        rfl
      _ = _ := by
        rw [Option.bind_assoc]
        exact Option.bind_congr fun r _ => (h' r.1.1).joins _ r.2

end

/-! ## Types -/

/-- Types are put into a draft as they are put into a draft of their own. -/
def FramedTypes (w : Width) (layOut : TypeLayout) : Prop :=
  ∀ before id, Framed w before (layOut id) (layOut id)

theorem framed_layOutFields {layOut : TypeLayout} (framed : FramedTypes w layOut)
    (fields : List Field) :
    Framed w before (layOutFields layOut fields) (layOutFields layOut fields) :=
  .foldlM fun field _ => framed before field.type

theorem framed_layOutArray {layOut : TypeLayout} (framed : FramedTypes w layOut)
    (element : TypeId) (length : Nat) :
    Framed w before (layOutArray w span layOut element length)
      (layOutArray w span layOut element length) := by
  let measured (draft : Draft) : EngineM (PerClass Zone × Draft) :=
    layOut element draft >>= fun inner => pure (inner.container.zones, inner)
  let put (zones : PerClass Zone) (draft : Draft) : EngineM Draft :=
    liftM (draft.putArray w span length zones)
  have steps : layOutArray w span layOut element length = fun draft =>
      measured { draft with container := .emptyBody } >>= fun r =>
        put r.1 { r.2 with container := draft.container } := by
    funext draft
    simp only [measured, bind_assoc, pure_bind]
    rfl
  have inner := framed { before with container := .emptyBody } element
  have inside : FramedInside w before .emptyBody (PerClass.map (Zone.rename before.numbering))
      measured measured := by
    refine ⟨fun part cache r done => ?_, fun part cache => ?_⟩
    · simp only [measured, finished_bind, finished_pure] at done
      obtain ⟨mid, first, same⟩ := Option.bind_eq_some_iff.mp done
      cases same
      exact inner.kind _ _ _ first
    · simp only [measured, finished_bind, finished_pure]
      rw [← Option.bind_assoc, inner.joins, Option.bind_assoc, Option.bind_assoc]
      refine Option.bind_congr fun r done => ?_
      rw [Option.bind_map, Option.bind_some, Option.map_eq_bind]
      refine Option.bind_congr fun now joined => ?_
      obtain ⟨_, container, behind, rfl⟩ := Draft.join?_eq_some.mp joined
      cases body : r.1.container with
      | arm items =>
        have := inner.kind _ _ _ done
        rw [body] at this
        contradiction
      | body zones =>
        rw [body, Container.join?_body] at behind
        cases behind
        rfl
  rw [steps]
  exact @Framed.inside w before _ _ .body _ _ _ put put inside (Draft.framed_putArray length)

/-! ## Variants -/

/-- Behind an empty arm, a draft can be emptied before or after. -/
theorem Draft.join?_emptied {next : Draft} (kind : next.container.isArm = true) :
    Draft.join? w { before with container := .arm [] } { next with container := .arm [] } =
      (Draft.join? w { before with container := .arm [] } next).map fun now =>
        { now with container := .arm [] } := by
  rw [@Draft.join?_back w { before with container := .arm [] } _ .arm next kind (.arm []),
    Option.map_eq_bind]
  rfl

/-- Behind an empty arm, an arm has the same items under new numbers. -/
theorem Draft.items_of_join? {next now : Draft} (kind : next.container.isArm = true)
    (joined : Draft.join? w { before with container := .arm [] } next = some now) :
    now.container.items = next.container.items.map (Item.rename before.numbering) := by
  obtain ⟨_, container, behind, rfl⟩ := Draft.join?_eq_some.mp joined
  cases own : next.container with
  | body zones =>
    rw [own] at kind
    contradiction
  | arm items =>
    rw [own] at behind
    cases Container.putAll?_arm.symm.trans behind
    show ((items.reverse.map (Item.rename before.numbering)).reverse ++ []).reverse = _
    rw [List.append_nil, List.reverse_reverse]
    rfl

/-- The arms that are collected behind a draft are those that are collected without it, under new
numbers. -/
theorem framedInside_collectArms {layOut : TypeLayout} (framed : FramedTypes w layOut)
    (index : Nat) (collected : List Arm) (ids : List TypeId) (part : Draft) (cache : Cache) :
    (Draft.join? w { before with container := .arm [] } { part with container := .arm [] }).bind
        (fun now => finished (collectArms w span layOut index
          (collected.map (Arm.rename before.numbering)) ids now) cache) =
      (finished (collectArms w span layOut index collected ids { part with container := .arm [] })
        cache).bind fun r =>
          (Draft.join? w { before with container := .arm [] } r.1.2).map fun now =>
            ((r.1.1.map (Arm.rename before.numbering), now), r.2) := by
  induction ids generalizing index collected part cache with
  | nil =>
    unfold collectArms
    simp only [finished_pure, Option.bind_some, ← List.map_reverse, Option.map_eq_bind]
    rfl
  | cons id rest ih =>
    have inner := framed { before with container := .arm [] } id
    unfold collectArms
    simp only [finished_bind]
    rw [← Option.bind_assoc, inner.joins, Option.bind_assoc, Option.bind_assoc]
    refine Option.bind_congr fun r done => ?_
    obtain ⟨next, later⟩ := r
    have kind : next.container.isArm = true := inner.kind _ _ _ done
    have rest (found : Arm) := ih (index + 1) (found :: collected) next later
    simp only [Draft.join?_emptied kind, Option.bind_map] at rest
    dsimp only [Draft.exchange]
    rw [Option.bind_map]
    cases joined : Draft.join? w { before with container := .arm [] } next with
    | none =>
      rw [joined] at rest
      cases Arm.of? w index next.container.items with
      | none => rfl
      | some found => exact rest found
    | some now =>
      rw [joined] at rest
      dsimp only [Option.bind_some, Function.comp]
      rw [Draft.items_of_join? kind joined, Arm.of?_rename]
      cases Arm.of? w index next.container.items with
      | none => rfl
      | some found => exact rest found

theorem kind_collectArms {layOut : TypeLayout} (index : Nat) (collected : List Arm)
    (ids : List TypeId) {part : Draft} {cache : Cache} {r : (List Arm × Draft) × Cache}
    (done : finished (collectArms w span layOut index collected ids
      { part with container := .arm [] }) cache = some r) : r.1.2.container = .arm [] := by
  induction ids generalizing index collected part cache with
  | nil =>
    unfold collectArms at done
    cases done
    rfl
  | cons id rest ih =>
    unfold collectArms at done
    rw [finished_bind] at done
    obtain ⟨mid, _, second⟩ := Option.bind_eq_some_iff.mp done
    dsimp only [Draft.exchange] at second
    split at second
    · exact ih _ _ second
    · contradiction

theorem framed_layOutVariant {layOut : TypeLayout} (framed : FramedTypes w layOut)
    (options : Options) (arms : List TypeId) :
    Framed w before (layOutVariant w options span layOut arms)
      (layOutVariant w options span layOut arms) := by
  let collect := collectArms w span layOut 0 [] arms
  let put (tag : Nat) (collected : List Arm) (draft : Draft) : EngineM Draft := do
    let resolution ← (Resolution.ofArms w options.maxSearchBytes collected).mapError
      (Failure.locate span)
    draft.putVariant w options span tag arms.length resolution
  let variant (tag : Nat) (draft : Draft) : EngineM Draft := do
    let tagged ← draft.putLeaf w span (.ofSize (tagSize arms.length)) (tagSize arms.length)
    let filled ← collect { tagged with container := .arm [] }
    put tag filled.1 { filled.2 with container := tagged.container }
  show Framed w before (fun draft => variant draft.slots draft) fun draft =>
    variant draft.slots draft
  have inside : FramedInside w before (.arm []) (List.map (Arm.rename before.numbering)) collect
      collect :=
    ⟨fun _ _ _ done => congrArg Container.isArm (kind_collectArms _ _ _ done),
      framedInside_collectArms framed 0 [] arms⟩
  refine .atSlots fun tag => (Draft.framed_putLeaf _ _).bind ?_
  refine @Framed.inside w before _ _ .arm _ _ _ (put tag) (put (tag + before.slots)) inside
    fun collected => ?_
  dsimp only [put]
  rw [Resolution.ofArms_rename]
  cases Resolution.ofArms w options.maxSearchBytes collected with
  | error e => exact .throw _ _
  | ok r => exact Draft.framed_putVariant options tag arms.length r

theorem framed_layOutNamed {setting : Setting} {struct : StructLayout} (name : String) :
    Framed setting.width before (layOutNamed setting span struct name)
      (layOutNamed setting span struct name) := by
  obtain ⟨run, step⟩ := setting.schema.exists_nameStep name
  rw [funext (step.layOutNamed_eq rfl span struct)]
  cases step with
  | unknown | badEnum => exact .throw _ _
  | enum => exact Draft.framed_putLeaf _ _
  | struct =>
    refine .after fun t => ?_
    split
    · exact Draft.framed_embed t
    · exact .throw _ _

/-- Types are put into a draft as they are put into a draft of their own, behind it. -/
theorem framed_layOutType (setting : Setting) (struct : StructLayout) (depth : Nat) :
    FramedTypes setting.width (layOutType setting struct depth) := by
  induction depth with
  | zero => exact fun before id => .throw _ _
  | succ depth ih =>
    intro before id
    obtain ⟨run, step⟩ := setting.schema.exists_typeStep id
    rw [layOutType_succ, funext (step.layOutForm_eq rfl struct (layOutType setting struct depth))]
    cases step with
    | refused => exact .throw _ _
    | primitive | string => exact Draft.framed_putLeaf _ _
    | array => exact framed_layOutArray ih _ _
    | variant => exact framed_layOutVariant ih _ _
    | record => exact framed_layOutFields ih _
    | named => exact framed_layOutNamed _

end PackedLayout
