import PackedLayout.Proofs.Framing

/-!
# Zones that are put in whole

A copy of a struct puts the zones of the struct into a body, each as one item. The body gets just
what it would get if the items in those zones were put in one by one.

- `Zone.foldlM_push?`: items behind a zone are the zone of these items behind it;
- `Container.putAll?_body_iff`: a body takes items class by class;
- `Container.putAll?_zoneItems`: so a body takes the zones of some items as it takes the items;
- `Draft.join?_template`: so does a draft with the template of another one behind it.
-/

namespace PackedLayout

variable {w : Width} {items : List Item} {item : Item}

/-! ## One zone -/

theorem Width.wrap_add_wrap (w : Width) (n m : Nat) : w.wrap (w.wrap n + m) = w.wrap (n + m) := by
  cases w with
  | unbounded => rfl
  | bits64 => exact Nat.mod_add_mod n words m

theorem PerClass.ext_get {α : Type} {p q : PerClass α} (same : ∀ a, p.get a = q.get a) : p = q := by
  have eight : p.eight = q.eight := same .eight
  have four : p.four = q.four := same .four
  have two : p.two = q.two := same .two
  have one : p.one = q.one := same .one
  cases p
  congr

theorem Leaf.moveBy_moveBy (w : Width) (n m : Nat) (leaf : Leaf) :
    (leaf.moveBy w n).moveBy w m = leaf.moveBy w (n + m) := by
  have offset : w.wrap (w.wrap (leaf.offset + n) + m) = w.wrap (leaf.offset + (n + m)) := by
    rw [Width.wrap_add_wrap, Nat.add_assoc]
  exact congrArg (fun offset => { leaf with offset }) offset

namespace Zone

variable {below above : Zone}

/-- A zone without a size has no leaves. -/
def Filled (zone : Zone) : Prop := zone.size = 0 → zone.leaves = []

/-- A zone behind another one, as one item of it. -/
def stack? (w : Width) (below above : Zone) : Option Zone :=
  if above.size = 0 then some below else below.push? w (above.toItem .one)

theorem push?_eq_some {zone next : Zone} : zone.push? w item = some next ↔
    w.Fits (zone.size + item.size) ∧ next = ⟨zone.size + item.size,
      item.leaves.map (Leaf.moveBy w zone.size) ++ zone.leaves⟩ := by
  unfold push?
  constructor
  · intro pushed
    obtain ⟨size, checked, rfl⟩ := Option.map_eq_some_iff.mp pushed
    obtain ⟨fits, rfl⟩ := Width.checked_eq_some.mp checked
    exact ⟨fits, rfl⟩
  · rintro ⟨fits, rfl⟩
    exact Option.map_eq_some_iff.mpr ⟨_, Width.checked_eq_some.mpr ⟨fits, rfl⟩, rfl⟩

theorem stack?_eq_some {last : Zone} (filled : above.Filled) : below.stack? w above = some last ↔
    (above.size = 0 ∨ w.Fits (below.size + above.size)) ∧ last = ⟨below.size + above.size,
      above.leaves.map (Leaf.moveBy w below.size) ++ below.leaves⟩ := by
  unfold stack?
  by_cases flat : above.size = 0
  · rw [if_pos flat, flat, filled flat, Option.some_inj, eq_comm]
    exact ⟨fun same => ⟨.inl rfl, same⟩, And.right⟩
  · rw [if_neg flat, push?_eq_some]
    exact and_congr_left fun _ => (or_iff_right flat).symm

theorem Filled.push? {next : Zone} (pos : 0 < item.size) (pushed : above.push? w item = some next) :
    next.Filled := by
  obtain ⟨_, rfl⟩ := push?_eq_some.mp pushed
  intro flat
  have : above.size + item.size = 0 := flat
  omega

/-- An item behind two zones is one behind the second of them, behind the first. -/
theorem stack?_push? (pos : 0 < item.size) (filled : above.Filled) :
    (below.stack? w above).bind (push? w · item) = (above.push? w item).bind (below.stack? w) := by
  have behind : item.leaves.map (Leaf.moveBy w (below.size + above.size)) =
      (item.leaves.map (Leaf.moveBy w above.size)).map (Leaf.moveBy w below.size) := by
    rw [List.map_map, Nat.add_comm]
    exact List.map_congr_left fun leaf _ => (leaf.moveBy_moveBy w above.size below.size).symm
  ext last
  rw [Option.bind_eq_some_iff, Option.bind_eq_some_iff]
  constructor
  · rintro ⟨mid, stacked, pushed⟩
    obtain ⟨_, rfl⟩ := (stack?_eq_some filled).mp stacked
    obtain ⟨fits, rfl⟩ := push?_eq_some.mp pushed
    have first := push?_eq_some.mpr ⟨fits.mono (Nat.add_le_add_right (Nat.le_add_left _ _) _), rfl⟩
    refine ⟨_, first, (stack?_eq_some (.push? pos first)).mpr ⟨.inr ?_, ?_⟩⟩
    · rwa [← Nat.add_assoc]
    · rw [List.map_append, List.append_assoc, Nat.add_assoc, behind]
  · rintro ⟨mid, pushed, stacked⟩
    have later := (stack?_eq_some (.push? pos pushed)).mp stacked
    obtain ⟨_, rfl⟩ := push?_eq_some.mp pushed
    obtain ⟨fits, rfl⟩ := later
    have fits : w.Fits (below.size + above.size + item.size) := by
      rw [Nat.add_assoc]
      exact fits.resolve_left (show above.size + item.size ≠ 0 by omega)
    refine ⟨_, (stack?_eq_some filled).mpr ⟨.inr (fits.mono (Nat.le_add_right _ _)), rfl⟩, ?_⟩
    refine push?_eq_some.mpr ⟨fits, ?_⟩
    rw [List.map_append, List.append_assoc, Nat.add_assoc, behind]

/-- Items behind a zone are the zone of these items behind it. -/
theorem foldlM_push? (pos : ∀ item ∈ items, 0 < item.size) (below : Zone) :
    items.foldlM (push? w) below = (items.foldlM (push? w) empty).bind (below.stack? w) := by
  have run (above : Zone) (filled : above.Filled) :
      (below.stack? w above).bind (items.foldlM (push? w)) =
        (items.foldlM (push? w) above).bind (below.stack? w) := by
    induction items generalizing above with
    | nil => exact Option.bind_fun_some (below.stack? w above)
    | cons item rest ih =>
      show (below.stack? w above).bind (fun now => (push? w now item).bind _) =
        ((push? w above item).bind _).bind _
      rw [← Option.bind_assoc, stack?_push? (pos item List.mem_cons_self) filled,
        Option.bind_assoc, Option.bind_assoc]
      refine Option.bind_congr fun next pushed => ih (fun other later => ?_) next
        (.push? (pos item List.mem_cons_self) pushed)
      exact pos other (List.mem_cons_of_mem _ later)
  exact run empty fun _ => rfl

end Zone

/-! ## A body -/

namespace Container

variable {f : Renaming} {zones made : PerClass Zone} {last : Container}

/-- A body takes items class by class. -/
theorem putAll?_body_iff : (body zones).putAll? w items = some last ↔
    ∃ now, last = body now ∧ ∀ a,
      (items.filter (·.align == a)).foldlM (Zone.push? w) (zones.get a) = some (now.get a) := by
  induction items generalizing zones with
  | nil =>
    constructor
    · rintro ⟨⟩
      exact ⟨zones, rfl, fun _ => rfl⟩
    · rintro ⟨now, rfl, same⟩
      have all : zones = now := PerClass.ext_get fun a => Option.some.inj (same a)
      exact congrArg some (congrArg body all)
  | cons item rest ih =>
    have first : (body zones).putAll? w (item :: rest) = ((zones.get item.align).push? w item).bind
        fun zone => (body (zones.set item.align zone)).putAll? w rest :=
      Option.bind_map ..
    have here (zone : Zone) : ((item :: rest).filter (·.align == item.align)).foldlM (Zone.push? w)
        zone = (zone.push? w item).bind
          ((rest.filter (·.align == item.align)).foldlM (Zone.push? w)) := by
      rw [List.filter_cons_of_pos (by simp)]
      rfl
    have there (a : Alignment) (other : item.align ≠ a) :
        (item :: rest).filter (·.align == a) = rest.filter (·.align == a) :=
      List.filter_cons_of_neg (by simpa using other)
    rw [first, Option.bind_eq_some_iff]
    constructor
    · rintro ⟨zone, pushed, later⟩
      obtain ⟨now, rfl, each⟩ := ih.mp later
      refine ⟨now, rfl, fun a => ?_⟩
      have each := each a
      rw [PerClass.get_set] at each
      by_cases same : item.align = a
      · subst same
        rw [here, pushed]
        rwa [if_pos rfl] at each
      · rw [there a same]
        rwa [if_neg same] at each
    · rintro ⟨now, rfl, each⟩
      have own := each item.align
      rw [here] at own
      obtain ⟨zone, pushed, later⟩ := Option.bind_eq_some_iff.mp own
      refine ⟨zone, pushed, ih.mpr ⟨now, rfl, fun a => ?_⟩⟩
      rw [PerClass.get_set]
      by_cases same : item.align = a
      · subst same
        rwa [if_pos rfl]
      · rw [if_neg same, ← there a same]
        exact each a

theorem filter_zoneItems (zones : PerClass Zone) (a : Alignment) :
    (zoneItems zones Alignment.descending).filter (·.align == a) =
      if (zones.get a).size = 0 then [] else [(zones.get a).toItem a] := by
  have own : (zoneItems zones Alignment.descending).filter (·.align == a) =
      zoneItems zones (Alignment.descending.filter (· == a)) := by
    unfold zoneItems
    rw [List.filter_map, List.filter_filter, List.filter_filter]
    exact congrArg _ (List.filter_congr fun b _ => Bool.and_comm _ _)
  have single : Alignment.descending.filter (· == a) = [a] := by cases a <;> rfl
  rw [own, single, zoneItems_cons]
  rfl

/-- A body takes the zones of some items just as it takes the items. -/
theorem putAll?_zoneItems (pos : ∀ item ∈ items, 0 < item.size)
    (into : emptyBody.putAll? w items = some (body made)) (zones : PerClass Zone) :
    (body zones).putAll? w (zoneItems made Alignment.descending) =
      (body zones).putAll? w items := by
  obtain ⟨_, same, each⟩ := putAll?_body_iff.mp into
  cases same
  have alike (a : Alignment) :
      ((zoneItems made Alignment.descending).filter (·.align == a)).foldlM (Zone.push? w)
        (zones.get a) = (items.filter (·.align == a)).foldlM (Zone.push? w) (zones.get a) := by
    have each := each a
    rw [PerClass.get_fill] at each
    rw [Zone.foldlM_push? fun item member => pos item (List.mem_of_mem_filter member), each,
      filter_zoneItems, Option.bind_some]
    unfold Zone.stack?
    split
    · rfl
    · exact Option.bind_fun_some _
  ext last
  rw [putAll?_body_iff, putAll?_body_iff]
  simp only [alike]

/-- What a body takes, an empty one takes. -/
theorem exists_putAll?_emptyBody (pos : ∀ item ∈ items, 0 < item.size)
    (put : (body zones).putAll? w items = some last) :
    ∃ made, emptyBody.putAll? w items = some (body made) := by
  obtain ⟨now, rfl, each⟩ := putAll?_body_iff.mp put
  have alone (a : Alignment) : ∃ zone,
      (items.filter (·.align == a)).foldlM (Zone.push? w) Zone.empty = some zone := by
    have each := each a
    rw [Zone.foldlM_push? fun item member => pos item (List.mem_of_mem_filter member)] at each
    obtain ⟨zone, made, _⟩ := Option.bind_eq_some_iff.mp each
    exact ⟨zone, made⟩
  choose made taken using alone
  refine ⟨.ofFn made, putAll?_body_iff.mpr ⟨_, rfl, fun a => ?_⟩⟩
  rw [PerClass.get_fill, PerClass.get_ofFn, taken]

end Container

/-! ## A draft -/

theorem PackId.renumber_zero (id : PackId) : id.renumber 0 = id := rfl

theorem Pack.renumber_zero (pack : Pack) : pack.renumber 0 = pack := by
  have parent : pack.parent.map (PackId.renumber 0) = pack.parent := by
    cases pack.parent <;> rfl
  exact congrArg (fun parent => { pack with parent }) parent

theorem Item.rename_zero (item : Item) : item.rename (.shift 0 0) = item := by
  have same (leaf : Leaf) : leaf.rename (.shift 0 0) = leaf :=
    congrArg (fun packs => { leaf with packs }) (List.map_id'' PackId.renumber_zero leaf.packs)
  exact congrArg (Item.mk item.size item.align) (List.map_id'' same item.leaves)

namespace Draft

variable {draft part made after : Draft}

theorem empty_joined (part : Draft) (container : Container) :
    empty.joined part container = { part with container } := by
  have packs : copied #[] part.packs = part.packs := by
    unfold copied
    rw [Array.empty_append]
    exact Array.map_id'' Pack.renumber_zero part.packs
  have variants : part.variants.map (VariantLayout.renumber 0) = part.variants :=
    Array.map_id'' (fun _ => rfl) part.variants
  unfold joined empty
  rw [packs]
  simp only [variants, Nat.zero_add, Array.empty_append]

/-- What comes behind an empty draft is put into a body of its own. -/
theorem empty_join? (room : part.slots ≤ maxSlots) (arm : part.container = .arm items) :
    empty.join? w part =
      (Container.emptyBody.putAll? w items.reverse).map fun container =>
        { part with container } := by
  have plain : items.reverse.map (Item.rename empty.numbering) = items.reverse :=
    List.map_id'' Item.rename_zero items.reverse
  rw [join?_of_arm (show 0 + part.slots ≤ maxSlots by omega) arm, plain]
  exact congrArg (Option.map · _) (funext (empty_joined part))

/-- A template behind a draft comes to what was put into the template behind that draft. -/
theorem join?_template {t : Template} {zones : PerClass Zone} (body : draft.container = .body zones)
    (arm : part.container = .arm items) (pos : ∀ item ∈ items, 0 < item.size)
    (joined : empty.join? w part = some made)
    (same : t.draft w = { made with
      container := .arm (zoneItems made.container.zones Alignment.descending).reverse }) :
    draft.join? w (t.draft w) = draft.join? w part := by
  have room : part.slots ≤ maxSlots := by
    have := (join?_eq_some.mp joined).1
    exact Nat.le_trans (Nat.le_add_left _ _) this
  rw [empty_join? room arm] at joined
  obtain ⟨container, put, rfl⟩ := Option.map_eq_some_iff.mp joined
  obtain ⟨own, rfl, _⟩ := Container.putAll?_body_iff.mp put
  have put' : Container.emptyBody.putAll? w (items.reverse.map (Item.rename draft.numbering)) =
      some (.body (own.map (Zone.rename draft.numbering))) := by
    have moved := Container.join?_putAll? (w := w) (f := draft.numbering) .emptyBody .emptyBody
      items.reverse
    rwa [Container.Clear.body.join?_self, put, Option.bind_some, Option.bind_some,
      Container.join?_body] at moved
  have pos' : ∀ item ∈ items.reverse.map (Item.rename draft.numbering), 0 < item.size := by
    intro item member
    obtain ⟨plain, listed, rfl⟩ := List.mem_map.mp member
    exact pos plain (List.mem_reverse.mp listed)
  have taken := Container.putAll?_zoneItems pos' put' zones
  rw [zoneItems_rename] at taken
  rw [same]
  unfold join?
  split
  · show ((draft.container.putAll? w _).map _ : Option Draft) = _
    rw [arm, body, List.reverse_reverse]
    exact congrArg (Option.map _) taken
  · rfl

/-- What is behind a body can be put into a body of its own, which is not larger. -/
theorem exists_empty_join? {zones : PerClass Zone} (body : draft.container = .body zones)
    (arm : part.container = .arm items) (pos : ∀ item ∈ items, 0 < item.size)
    (joined : draft.join? w part = some after) :
    ∃ made, empty.join? w part = some made ∧ made.warnings = part.warnings ∧
      (Container.body made.container.zones).bytes ≤
        (Container.body after.container.zones).bytes := by
  obtain ⟨room, container, put, rfl⟩ := join?_eq_some.mp joined
  rw [arm, body] at put
  have into : (Container.body zones).putAll? w (items.reverse.map (Item.rename draft.numbering)) =
      some container := put
  have pos' : ∀ item ∈ items.reverse.map (Item.rename draft.numbering), 0 < item.size := by
    intro item member
    obtain ⟨plain, listed, rfl⟩ := List.mem_map.mp member
    exact pos plain (List.mem_reverse.mp listed)
  obtain ⟨renamed, taken⟩ := Container.exists_putAll?_emptyBody pos' into
  have moved := Container.join?_putAll? (w := w) (f := draft.numbering) .emptyBody .emptyBody
    items.reverse
  rw [Container.Clear.body.join?_self, Option.bind_some, taken] at moved
  obtain ⟨own, put', _⟩ := Option.bind_eq_some_iff.mp moved.symm
  obtain ⟨now, rfl, _⟩ := Container.putAll?_body_iff.mp put'
  obtain ⟨last, rfl, _⟩ := Container.putAll?_body_iff.mp into
  refine ⟨{ part with container := .body now }, ?_, rfl, ?_⟩
  · rw [empty_join? (Nat.le_trans (Nat.le_add_left _ _) room) arm, put']
    rfl
  · show (Container.body now).bytes ≤ (Container.body last).bytes
    have size : exactSize (items.reverse.map (Item.rename draft.numbering)) =
        exactSize items.reverse := congrArg exactSum (map_size_rename items.reverse)
    rw [Container.bytes_putAll put', Container.bytes_putAll into, size]
    exact Nat.add_le_add_right (Nat.zero_le _) _

end Draft

end PackedLayout
