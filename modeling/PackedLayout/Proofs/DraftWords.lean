import PackedLayout.Proofs.Drafting
import PackedLayout.Proofs.Lockstep

/-!
# Drafts in words

Every way of putting something into a draft is the exact one in words, or it overflows because the
container holds more bytes than fit into a word:

- `Container.bytes`: the bytes a container holds;
- `Arm.of?_inWords`, `footprint?_inWords`: counting overflows where there is too much to count;
- `putZones_inWords`, `putArray_inWords`: so does putting in zones and arrays.
-/

namespace PackedLayout

variable {w : Width} {span : Span} {item : Item} {draft after : Draft}

/-! ## Sums of sizes -/

section Folds

variable {ε α β : Type} {size : β → Nat}

/-- Steps that add something each add all of it. -/
theorem size_of_foldlM {step : β → α → Except ε β} {xs : List α} (add : α → Nat)
    (adds : ∀ b x c, step b x = .ok c → size c = size b + add x) {b last : β}
    (run : xs.foldlM step b = .ok last) : size last = size b + exactSum (xs.map add) := by
  induction xs generalizing b with
  | nil =>
    cases run
    rfl
  | cons x rest ih =>
    rw [List.foldlM_cons, bind_eq_ok] at run
    obtain ⟨c, first, run⟩ := run
    rw [ih run, adds b x c first, List.map_cons, exactSum_cons, Nat.add_assoc]

/-- Steps in words that add something each overflow only where the sum is large. -/
theorem InWords.foldlM {overflow : ε} {step step' : β → α → Except ε β} {xs : List α}
    (add : α → Nat) (each : ∀ b x, InWords overflow (Width.words ≤ size ·) (step b x) (step' b x))
    (adds : ∀ b x c, step' b x = .ok c → size c = size b + add x) (b : β) :
    InWords overflow (Width.words ≤ size ·) (xs.foldlM step b) (xs.foldlM step' b) := by
  induction xs generalizing b with
  | nil => exact InWords.pure b
  | cons x rest ih =>
    rw [List.foldlM_cons, List.foldlM_cons]
    apply (each b x).bind
    · exact fun c _ => ih c
    · intro c last _ large run
      rw [size_of_foldlM add adds run]
      exact Nat.le_trans large (Nat.le_add_right _ _)

end Folds

/-! ## Containers -/

namespace Container

/-- The bytes that a container holds. -/
def bytes : Container → Nat
  | body zones => exactSum (zones.toList.map (·.size))
  | arm items => exactSize items

theorem size_le_bytes (zones : PerClass Zone) (a : Alignment) :
    (zones.get a).size ≤ (body zones).bytes := by
  cases a <;>
    simp only [bytes, PerClass.toList, PerClass.get, List.map_cons, List.map_nil,
      exactSum_cons] <;> omega

theorem bytes_put? {c next : Container} (put : c.put? w item = some next) :
    next.bytes = c.bytes + item.size := by
  cases c with
  | arm items =>
    cases put
    exact Nat.add_comm _ _
  | body zones =>
    obtain ⟨zone, pushed, rfl⟩ := Option.map_eq_some_iff.mp put
    obtain ⟨size, checked, rfl⟩ := Option.map_eq_some_iff.mp pushed
    obtain ⟨_, rfl⟩ := Width.checked_eq_some.mp checked
    cases align : item.align <;>
      simp only [bytes, PerClass.toList, PerClass.set, PerClass.modify, PerClass.get,
        List.map_cons, List.map_nil, exactSum_cons, exactSum_nil] <;> omega

/-- Items that are put in add their bytes. -/
theorem bytes_putAll {items : List Item} {c last : Container} (put : PutAll w items c last) :
    last.bytes = c.bytes + exactSize items := by
  induction items generalizing c with
  | nil =>
    cases put
    rfl
  | cons item rest ih =>
    unfold PutAll at put
    rw [List.foldlM_cons] at put
    obtain ⟨next, first, later⟩ := Option.bind_eq_some_iff.mp put
    have split : exactSize (item :: rest) = item.size + exactSize rest := rfl
    rw [ih later, bytes_put? first, split, Nat.add_assoc]

end Container

/-- Zones have the bytes of their items. -/
theorem exactSize_zoneItems (zones : PerClass Zone) :
    exactSize (zoneItems zones Alignment.descending) = (Container.body zones).bytes := by
  have each (classes : List Alignment) : exactSize (zoneItems zones classes) =
      exactSum (classes.map fun a => (zones.get a).size) := by
    induction classes with
    | nil => rfl
    | cons a rest ih =>
      rw [zoneItems_cons, List.map_cons, exactSum_cons, ← ih]
      by_cases empty : (zones.get a).size = 0
      · simp [empty]
      · rw [if_neg empty]
        rfl
  rw [each, Container.bytes, PerClass.toList_eq_map_get, List.map_map]
  rfl

/-- Every leaf begins within `size` bytes. -/
def Contained (size : Nat) (leaves : List Leaf) : Prop := ∀ leaf ∈ leaves, leaf.offset ≤ size

theorem Zone.push?_inWords {zone : Zone} (within : Contained item.size item.leaves) :
    InWords? (Width.words ≤ ·.size) (zone.push? .bits64 item) (zone.push? .unbounded item) := by
  refine ⟨_, rfl, ?_⟩
  unfold push?
  cases checked : Width.bits64.checked (zone.size + item.size) with
  | none => exact .inr ⟨rfl, Width.checked_bits64_eq_none.mp checked⟩
  | some size =>
    obtain ⟨fits, rfl⟩ := Width.checked_eq_some.mp checked
    have moved : item.leaves.map (Leaf.moveBy .bits64 zone.size) =
        item.leaves.map (Leaf.moveBy .unbounded zone.size) := by
      apply List.map_congr_left
      intro leaf member
      have le := within leaf member
      have exact_ : Width.bits64.Fits (leaf.offset + zone.size) := fits.mono (by omega)
      exact congrArg (fun offset => { leaf with offset }) exact_.wrap
    rw [moved]
    exact .inl rfl

theorem Container.put?_inWords {c : Container} (within : Contained item.size item.leaves) :
    InWords? (Width.words ≤ ·.bytes) (c.put? .bits64 item) (c.put? .unbounded item) := by
  cases c with
  | arm items => exact ⟨_, rfl, .inl rfl⟩
  | body zones =>
    apply (Zone.push?_inWords within).map
    intro zone pushed large
    have put : (Container.body zones).put? .unbounded item =
        some (.body (zones.set item.align zone)) :=
      congrArg (Option.map fun zone => body (zones.set item.align zone)) pushed
    obtain rfl := Option.some.inj pushed
    rw [bytes_put? put]
    refine Nat.le_trans large (Nat.add_le_add_right ?_ _)
    exact size_le_bytes zones item.align

/-! ## Counts -/

namespace UnitCounts

theorem ext_bytes {counts other : UnitCounts}
    (same : ∀ a, counts.bytes .unbounded a = other.bytes .unbounded a) : counts = other := by
  have each (a : Alignment) : counts.get a = other.get a :=
    Nat.eq_of_mul_eq_mul_right a.bytes_pos (same a)
  obtain ⟨⟨_, _, _, _⟩⟩ := counts
  obtain ⟨⟨_, _, _, _⟩⟩ := other
  obtain rfl : _ = _ := each .eight
  obtain rfl : _ = _ := each .four
  obtain rfl : _ = _ := each .two
  obtain rfl : _ = _ := each .one
  rfl

theorem exists_addBytes? (counts : UnitCounts) {a : Alignment} {n : Nat} (whole : a.bytes ∣ n) :
    ∃ next, counts.addBytes? .unbounded a n = some (next, counts.totalBytes .unbounded + n) ∧
      next.totalBytes .unbounded = counts.totalBytes .unbounded + n ∧
      ∀ b, next.bytes .unbounded b = counts.bytes .unbounded b + if a = b then n else 0 :=
  ⟨_, rfl, totalBytes_modify counts whole, bytes_modify counts whole⟩

/-- Adding bytes overflows only if there are too many. -/
theorem addBytes?_inWords {counts : UnitCounts} (exact_ : counts.Exact .bits64) {a : Alignment}
    {n : Nat} (whole : a.bytes ∣ n) :
    InWords? (Width.words ≤ ·.2) (counts.addBytes? .bits64 a n)
      (counts.addBytes? .unbounded a n) := by
  obtain ⟨next, there, _, bytes⟩ := counts.exists_addBytes? whole
  refine ⟨_, there, ?_⟩
  cases added : counts.addBytes? .bits64 a n with
  | none =>
    have refused := Option.map_eq_none_iff.mp added
    rw [exact_.totalBytes] at refused
    exact .inr ⟨rfl, Width.checked_bits64_eq_none.mp refused⟩
  | some r =>
    obtain ⟨next', total⟩ := r
    obtain ⟨_, _, rfl, bytes'⟩ := addBytes?_eq_some exact_ whole added
    obtain rfl := ext_bytes fun b => (bytes' b).trans (bytes b).symm
    exact .inl rfl

end UnitCounts

namespace Arm

variable {fields : List Item}

theorem exists_foldlM_count? (whole : ∀ item ∈ fields, item.align.bytes ∣ item.size)
    (sofar : UnitCounts × Nat) (total : sofar.2 = sofar.1.totalBytes .unbounded) :
    ∃ last, fields.foldlM (count? .unbounded) sofar = some last ∧
      last.2 = sofar.2 + exactSize fields := by
  induction fields generalizing sofar with
  | nil => exact ⟨sofar, rfl, rfl⟩
  | cons item rest ih =>
    obtain ⟨next, added, known, _⟩ :=
      sofar.1.exists_addBytes? (whole item List.mem_cons_self)
    obtain ⟨last, counted, sum⟩ :=
      ih (fun other later => whole other (List.mem_cons_of_mem _ later))
        (next, sofar.1.totalBytes .unbounded + item.size) known.symm
    refine ⟨last, ?_, ?_⟩
    · rw [List.foldlM_cons, count?, added]
      exact counted
    · have split : exactSize (item :: rest) = item.size + exactSize rest := rfl
      simp only at sum
      omega

/-- Counting fields overflows only if they have too many bytes. -/
theorem foldlM_count?_inWords (whole : ∀ item ∈ fields, item.align.bytes ∣ item.size)
    (sofar : UnitCounts × Nat) (exact_ : sofar.1.Exact .bits64)
    (total : sofar.2 = sofar.1.totalBytes .unbounded) :
    InWords? (fun _ => Width.words ≤ sofar.2 + exactSize fields)
      (fields.foldlM (count? .bits64) sofar) (fields.foldlM (count? .unbounded) sofar) := by
  induction fields generalizing sofar with
  | nil => exact ⟨sofar, rfl, .inl rfl⟩
  | cons item rest ih =>
    have whole' : ∀ other ∈ rest, other.align.bytes ∣ other.size :=
      fun other later => whole other (List.mem_cons_of_mem _ later)
    have split : exactSize (item :: rest) = item.size + exactSize rest := rfl
    obtain ⟨next, there, known, _⟩ := sofar.1.exists_addBytes? (whole item List.mem_cons_self)
    obtain ⟨_, again, here | ⟨none, large⟩⟩ :=
      UnitCounts.addBytes?_inWords exact_ (whole item List.mem_cons_self)
    all_goals
      obtain rfl := Option.some.inj (there.symm.trans again)
      rw [List.foldlM_cons, List.foldlM_cons, count?, count?, there]
    · rw [here]
      have fits := (UnitCounts.addBytes?_eq_some exact_ (whole item List.mem_cons_self) here).1
      obtain ⟨last, counted, ran⟩ := ih whole' (next, _) fits known.symm
      refine ⟨last, counted, ran.imp_right fun ⟨failed, large⟩ => ⟨failed, ?_⟩⟩
      simp only at large
      omega
    · rw [none]
      obtain ⟨last, counted, _⟩ := exists_foldlM_count? whole' (next, _) known.symm
      refine ⟨last, counted, .inr ⟨rfl, ?_⟩⟩
      simp only at large
      omega

/-- Collecting the fields of an arm overflows only if they have too many bytes. -/
theorem of?_inWords (index : Nat) (whole : ∀ item ∈ fields, item.align.bytes ∣ item.size) :
    InWords? (fun _ => Width.words ≤ exactSize fields) (of? .bits64 index fields)
      (of? .unbounded index fields) := by
  apply (foldlM_count?_inWords whole (.empty, 0) (UnitCounts.exact_empty _) rfl).map
  intro _ _ large
  rwa [Nat.zero_add] at large

end Arm

theorem foldlM_addBytes?_eq (w : Width) (zones : PerClass Zone) (classes : List Alignment)
    (counts : UnitCounts) (n : Nat) :
    classes.foldlM (fun counts a => (counts.addBytes? w a (zones.get a).size).map (·.1)) counts =
      ((classes.map fun a => (zones.get a).toItem a).foldlM (Arm.count? w) (counts, n)).map
        (·.1) := by
  induction classes generalizing counts n with
  | nil => rfl
  | cons a rest ih =>
    rw [List.foldlM_cons, List.map_cons, List.foldlM_cons]
    show ((counts.addBytes? w a (zones.get a).size).map (·.1)).bind _ =
      ((counts.addBytes? w a (zones.get a).size).bind _).map _
    cases counts.addBytes? w a (zones.get a).size with
    | none => rfl
    | some next => exact ih next.1 next.2

/-- Taking the footprint of some zones overflows only if they have too many bytes. -/
theorem footprint?_inWords {zones : PerClass Zone}
    (whole : ∀ a, a.bytes ∣ (zones.get a).size) :
    InWords? (fun _ => Width.words ≤ (Container.body zones).bytes) (footprint? .bits64 zones)
      (footprint? .unbounded zones) := by
  have whole' : ∀ item ∈ Alignment.descending.map (fun a => (zones.get a).toItem a),
      item.align.bytes ∣ item.size := by
    intro item member
    obtain ⟨a, _, rfl⟩ := List.mem_map.mp member
    exact whole a
  unfold footprint?
  rw [foldlM_addBytes?_eq .bits64 zones _ _ 0, foldlM_addBytes?_eq .unbounded zones _ _ 0]
  apply (Arm.foldlM_count?_inWords whole' (.empty, 0) (UnitCounts.exact_empty _) rfl).map
  intro _ _ large
  rwa [Nat.zero_add] at large

/-! ## Drafts -/

namespace Draft

/-- The bytes that the draft's container holds. -/
def bytes (draft : Draft) : Nat := draft.container.bytes

theorem bytes_put (put : draft.put w span item = .ok after) :
    after.bytes = draft.bytes + item.size := by
  obtain ⟨into, _⟩ := (ensures_put w span item draft).of_ok put
  exact Container.bytes_put? into

theorem put_inWords (within : Contained item.size item.leaves) :
    InWords (.overflow span) (Width.words ≤ bytes ·) (draft.put .bits64 span item)
      (draft.put .unbounded span item) := by
  obtain ⟨next, put, ran⟩ := Container.put?_inWords (c := draft.container) within
  unfold Draft.put
  rw [put]
  obtain same | ⟨failed, large⟩ := ran
  · rw [same]
    exact InWords.pure _
  · rw [failed]
    exact ⟨_, rfl, .inr ⟨rfl, large⟩⟩

section Zones

variable {zones : PerClass Zone}

/-- Putting in zones overflows only if the container gets too large. -/
theorem putZones_inWords (within : ∀ a, (zones.get a).size ≠ 0 →
      Contained (zones.get a).size (zones.get a).leaves) :
    InWords (.overflow span) (Width.words ≤ bytes ·) (draft.putZones .bits64 span zones)
      (draft.putZones .unbounded span zones) := by
  refine InWords.foldlM (fun a => (zones.get a).size) (fun now a => ?_)
    (fun now a next step => ?_) draft
  · split
    · exact InWords.pure now
    · rename_i nonempty
      exact put_inWords (within a nonempty)
  · split at step
    · rename_i empty
      cases step
      rw [empty]
      rfl
    · exact bytes_put step

end Zones

section Arrays

variable {length size : Nat} {a : Alignment} {leaves : List Leaf}

theorem bytes_putPack (run : draft.putPack w span length a size leaves = .ok after) :
    after.bytes = draft.bytes + size * length := by
  unfold putPack at run
  split at run
  · rename_i empty
    cases run
    rw [empty, Nat.zero_mul]
    rfl
  · split at run
    · contradiction
    · rename_i total checked
      obtain ⟨_, rfl⟩ := Width.checked_eq_some.mp checked
      exact bytes_put run

theorem putPack_inWords (pos : 0 < length) (within : size ≠ 0 → Contained size leaves) :
    InWords (.overflow span) (Width.words ≤ bytes ·)
      (draft.putPack .bits64 span length a size leaves)
      (draft.putPack .unbounded span length a size leaves) := by
  unfold putPack
  split
  · exact InWords.pure draft
  · rename_i nonempty
    have within' (pack : Pack) : Contained (size * length) (draft.addPack pack leaves).1 := by
      intro leaf member
      obtain ⟨inner, listed, rfl⟩ := List.mem_map.mp member
      exact Nat.le_trans (within nonempty inner listed) (Nat.le_mul_of_pos_right size pos)
    have put (pack : Pack) : InWords (.overflow span) (Width.words ≤ bytes ·)
        ((draft.addPack pack leaves).2.put .bits64 span
          ⟨size * length, a, (draft.addPack pack leaves).1⟩)
        ((draft.addPack pack leaves).2.put .unbounded span
          ⟨size * length, a, (draft.addPack pack leaves).1⟩) := put_inWords (within' pack)
    obtain ⟨total, exact_, same | ⟨failed, large⟩⟩ := checked_inWords (size * length)
    all_goals obtain rfl := Option.some.inj exact_
    · rw [same]
      exact put _
    · rw [failed]
      obtain ⟨after, done, _⟩ := put ⟨size * length, size, length, a, none⟩
      refine ⟨after, done, .inr ⟨rfl, ?_⟩⟩
      show Width.words ≤ after.bytes
      rw [bytes_put done]
      exact Nat.le_trans large (Nat.le_add_left _ _)

variable {element : PerClass Zone}

/-- The exact sizes of the zones of an element, times the length of its array. -/
theorem bytes_putArray (whole : ∀ a, a.bytes ∣ (element.get a).size)
    (run : draft.putArray w span length element = .ok after) :
    after.bytes = draft.bytes + (Container.body element).bytes * length := by
  unfold putArray at run
  split at run
  · contradiction
  · rename_i footprint counted
    obtain ⟨exact_, bytes⟩ := footprint?_spec whole counted
    have sum : after.bytes = _ :=
      size_of_foldlM (fun a => (element.get a).size * length) (fun now a next step => by
        rw [exact_.bytes, bytes] at step
        exact bytes_putPack step) run
    rw [sum]
    simp only [Container.bytes, PerClass.toList_eq_map_get, Alignment.descending, List.map_cons,
      List.map_nil, exactSum_cons, exactSum_nil, Nat.add_mul, Nat.zero_mul]

/-- Putting in an array overflows only if the container gets too large. -/
theorem putArray_inWords (pos : 0 < length) (whole : ∀ a, a.bytes ∣ (element.get a).size)
    (within : ∀ a, (element.get a).size ≠ 0 →
      Contained (element.get a).size (element.get a).leaves) :
    InWords (.overflow span) (Width.words ≤ bytes ·) (draft.putArray .bits64 span length element)
      (draft.putArray .unbounded span length element) := by
  -- in exact arithmetic every class is put in
  have all (footprint : UnitCounts) (counted : footprint? .unbounded element = some footprint)
      (v : Width) (same : ∀ a, footprint.bytes v a = footprint.bytes .unbounded a) :
      InWords (.overflow span) (Width.words ≤ bytes ·)
        (Alignment.descending.foldlM (fun now a =>
          now.putPack .bits64 span length a (footprint.bytes v a) (element.get a).leaves) draft)
        (draft.putArray .unbounded span length element) := by
    obtain ⟨_, bytes⟩ := footprint?_spec whole counted
    unfold putArray
    rw [counted]
    simp only [same]
    refine InWords.foldlM (fun a => (element.get a).size * length) (fun now a => ?_)
      (fun now a next step => ?_) draft
    · rw [bytes]
      exact putPack_inWords pos (within a)
    · rw [bytes] at step
      exact bytes_putPack step
  obtain ⟨footprint, counted, same | ⟨failed, large⟩⟩ := footprint?_inWords whole
  · have exact_ := (footprint?_spec whole same).1
    have run := all footprint counted .bits64 exact_.bytes
    have here : draft.putArray .bits64 span length element = Alignment.descending.foldlM
        (fun now a => now.putPack .bits64 span length a (footprint.bytes .bits64 a)
          (element.get a).leaves) draft := by
      conv_lhs => unfold putArray
      rw [same]
    rwa [here]
  · obtain ⟨after, done, _⟩ := all footprint counted .unbounded fun _ => rfl
    refine ⟨after, done, .inr ⟨?_, ?_⟩⟩
    · unfold putArray
      rw [failed]
    · show Width.words ≤ after.bytes
      rw [bytes_putArray whole done]
      have repeated := Nat.le_mul_of_pos_right (Container.body element).bytes pos
      exact Nat.le_trans large (Nat.le_trans repeated (Nat.le_add_left _ _))

end Arrays

/-! ## Leaves, structs and variants -/

/-- The run ends in a draft that holds `n` bytes. -/
def Holding (run : Except LayoutError Draft) (n : Nat) : Prop :=
  ∃ after, run = .ok after ∧ after.bytes = n

theorem matches_putLeaf (draft : Draft) (span : Span) (align : Alignment) (size : Nat) :
    Matches (Holding (draft.putLeaf .unbounded span align size))
      (fun after => draft.putLeaf .bits64 span align size = .ok after)
      (draft.putLeaf .bits64 span align size) (draft.putLeaf .unbounded span align size) := by
  unfold putLeaf
  split
  · refine (put_inWords fun leaf member => ?_).matches
    rw [List.mem_singleton.mp member]
    exact Nat.zero_le _
  · exact .inr ⟨rfl, nofun⟩

/-- The leaves of zones that realize some parts begin within them. -/
theorem contained_of_realizes {packs : Array Pack} {first base : Nat} {parts : List Part}
    {zones : PerClass Zone} (h : Realizes packs first base parts
      (zoneItems zones Alignment.descending)) (a : Alignment) (nonempty : (zones.get a).size ≠ 0) :
    Contained (zones.get a).size (zones.get a).leaves := by
  intro leaf member
  have listed : (zones.get a).toItem a ∈ zoneItems zones Alignment.descending :=
    List.mem_map_of_mem (List.mem_filter.mpr ⟨a.mem_descending, by simpa using nonempty⟩)
  exact ((h.sound _ listed).arranged.lies leaf member).offset_le

theorem matches_embed {t : Template} {parts : List Part} (h : t.Realizes .bits64 parts) :
    Matches (Holding (draft.embed .unbounded span t)) (fun _ => True)
      (draft.embed .bits64 span t) (draft.embed .unbounded span t) := by
  have sized (slots packs : Nat) :
      (t.renumber slots packs).sizedZones .unbounded =
        (t.renumber slots packs).sizedZones .bits64 :=
    congrArg PerClass.ofFn (funext fun a => by
      rw [show (t.renumber slots packs).footprint = t.footprint from rfl, h.counts.bytes])
  unfold embed
  split
  · exact .inr ⟨rfl, nofun⟩
  · dsimp only
    rw [sized]
    refine ((putZones_inWords fun a nonempty leaf member => ?_).matches).imp_right
      fun ⟨same, holds⟩ => ⟨same, holds.mono fun _ _ => trivial⟩
    rw [h.get_sizedZones] at nonempty member ⊢
    obtain ⟨inner, listed, rfl⟩ := List.mem_map.mp member
    exact contained_of_realizes h.zones a nonempty inner listed

/-- The zones of a storage are the exact ones. -/
theorem zones_exact {s : Storage} {arms : List Arm} (sound : s.Sound .bits64 arms)
    (within : ∀ arm ∈ arms, ∀ item ∈ arm.pending, Contained item.size item.leaves) :
    s.zones .bits64 = s.zones .unbounded := by
  refine congrArg PerClass.ofFn (funext fun a => ?_)
  unfold Storage.zone
  cases found : s.steps.find? (·.zone == a) with
  | none => rfl
  | some step =>
    have member := List.mem_of_find?_eq_some found
    obtain ⟨filled, own⟩ := sound.steps step member
    have fits : Width.bits64.Fits step.size := by
      have stop := filled.fits
      rw [filled.stop_eq] at stop
      exact stop.mono (Nat.le_add_left _ _)
    refine congrArg (Zone.mk step.size) (List.flatMap_congr fun stack listed => ?_)
    obtain ⟨arm, there, placed⟩ := exists_left_of_mem own listed
    have inside : ∀ item ∈ stack.items, ∀ leaf ∈ item.leaves, leaf.offset ≤ item.size :=
      fun item inner => within arm there item (placed item inner)
    have compact : stack.Compact := by
      obtain ⟨results, _, piles, each⟩ := filled.filled
      rw [piles] at listed
      obtain ⟨r, result, rfl⟩ := List.mem_map.mp listed
      obtain ⟨_, _, filled⟩ := exists_left_of_mem each result
      exact filled.compact
    rw [Stack.leaves_eq compact (fits.mono (filled.height_le stack listed)) inside,
      Stack.leaves_eq compact (Width.fits_unbounded _) inside]

theorem matches_putVariant {options : Options} {tag arms : Nat} {r : Resolution}
    (zones : r.storage.zones .bits64 = r.storage.zones .unbounded)
    (within : ∀ a, ((r.storage.zones .bits64).get a).size ≠ 0 →
      Contained ((r.storage.zones .bits64).get a).size ((r.storage.zones .bits64).get a).leaves) :
    Matches (Holding (draft.putVariant .unbounded options span tag arms r)) (fun _ => True)
      (draft.putVariant .bits64 options span tag arms r)
      (draft.putVariant .unbounded options span tag arms r) := by
  unfold putVariant
  split
  · exact .inr ⟨rfl, nofun⟩
  · rw [← zones]
    exact (putZones_inWords within).matches.imp_right
      fun ⟨same, holds⟩ => ⟨same, holds.mono fun _ _ => trivial⟩

end Draft

end PackedLayout
