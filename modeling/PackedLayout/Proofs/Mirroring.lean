import PackedLayout.Proofs.Elements
import PackedLayout.Proofs.PackNesting

/-!
# Layouts mirror their schema

The tables of a layout are in the order of the schema: one slot for every part of the root's shape,
and one record for every variant in it.

- `Shape.occurrences`: the variants of a shape, in the order of their records;
- `Shape.nodup_paths`: no two parts of a shape are at the end of the same way;
- `Puts.records`, `Makes.marks`: the records that are made when a shape is put into a draft;
- `layout_mirrors_shape`: what the tables of a layout hold.
-/

namespace PackedLayout

/-- A variant in a shape. -/
structure Occurrence where
  /-- The way to it, outermost step first. -/
  way : List Step := []
  /-- The number of its arms. -/
  arms : Nat
deriving DecidableEq

def Occurrence.under (step : Step) (o : Occurrence) : Occurrence := { o with way := step :: o.way }

namespace Shape

mutual

/-- The variants of a shape in the order in which they are done: those in the arms of a variant
before the variant itself. -/
def occurrences : Shape → List Occurrence
  | .leaf _ _ => []
  | .array length element => element.occurrences.map (Occurrence.under (.element length))
  | .variant arms => occurrencesAmong .arm 0 arms ++ [⟨[], arms.length⟩]
  | .record fields => occurrencesAmong .field 0 fields

/-- The variants of some shapes, each under a step of its own, numbered from `index` on. -/
def occurrencesAmong (step : Nat → Step) (index : Nat) : List Shape → List Occurrence
  | [] => []
  | shape :: rest =>
    shape.occurrences.map (Occurrence.under (step index)) ++
      occurrencesAmong step (index + 1) rest

end

theorem occurrencesAmong_append (step : Nat → Step) (index : Nat) (shapes others : List Shape) :
    occurrencesAmong step index (shapes ++ others) = occurrencesAmong step index shapes ++
      occurrencesAmong step (index + shapes.length) others := by
  induction shapes generalizing index with
  | nil => rfl
  | cons shape rest ih =>
    have further : index + 1 + rest.length = index + (shape :: rest).length := by
      rw [List.length_cons]
      omega
    rw [List.cons_append, occurrencesAmong, occurrencesAmong, ih, further, List.append_assoc]

theorem occurrencesAmong_concat (step : Nat → Step) (shapes : List Shape) (shape : Shape) :
    occurrencesAmong step 0 (shapes ++ [shape]) = occurrencesAmong step 0 shapes ++
      shape.occurrences.map (Occurrence.under (step shapes.length)) := by
  rw [occurrencesAmong_append, occurrencesAmong, occurrencesAmong, List.append_nil, Nat.zero_add]

/-! ## Ways to the parts -/

theorem path_of_mem_branches {step : Nat → Step} {index : Nat} {shapes : List Shape} {part : Part}
    (member : part ∈ branches step index shapes) :
    ∃ i inner, index ≤ i ∧ part.path = step i :: inner := by
  induction shapes generalizing index with
  | nil => exact absurd member List.not_mem_nil
  | cons shape rest ih =>
    obtain first | later := List.mem_append.mp member
    · obtain ⟨inner, _, rfl⟩ := List.mem_map.mp first
      exact ⟨index, inner.path, Nat.le_refl _, rfl⟩
    · obtain ⟨i, inner, le, same⟩ := ih later
      exact ⟨i, inner, Nat.le_of_succ_le le, same⟩

theorem paths_under (step : Step) (parts : List Part) :
    (parts.map (Part.under step)).map (·.path) = (parts.map (·.path)).map (step :: ·) := by
  rw [List.map_map, List.map_map]
  rfl

mutual

/-- No two parts of a shape are at the end of the same way. -/
theorem nodup_paths : (shape : Shape) → (shape.parts.map (·.path)).Nodup
  | .leaf _ _ => by simp [parts]
  | .array length element => by
    rw [parts, paths_under]
    exact element.nodup_paths.map fun _ _ same => (List.cons.inj same).2
  | .variant arms => by
    rw [parts, List.map_cons, List.nodup_cons]
    constructor
    · intro member
      obtain ⟨part, listed, same⟩ := List.mem_map.mp member
      obtain ⟨i, inner, _, path⟩ := path_of_mem_branches listed
      rw [path] at same
      cases same
    · exact nodup_paths_branches (fun _ _ => Step.arm.inj) 0 arms
  | .record fields => by
    rw [parts]
    exact nodup_paths_branches (fun _ _ => Step.field.inj) 0 fields

theorem nodup_paths_branches {step : Nat → Step} (injective : Function.Injective step)
    (index : Nat) : (shapes : List Shape) → ((branches step index shapes).map (·.path)).Nodup
  | [] => List.nodup_nil
  | shape :: rest => by
    rw [branches, List.map_append, List.nodup_append', paths_under]
    refine ⟨?_, nodup_paths_branches injective (index + 1) rest, ?_⟩
    · exact shape.nodup_paths.map fun _ _ same => (List.cons.inj same).2
    · intro path first later
      obtain ⟨inner, _, rfl⟩ := List.mem_map.mp first
      obtain ⟨part, listed, same⟩ := List.mem_map.mp later
      obtain ⟨i, inner, below, path⟩ := path_of_mem_branches listed
      have here := injective (List.cons.inj (path.symm.trans same)).1
      omega

end

/-- The way to a part determines its slot. -/
theorem slot_unique {shape : Shape} {slot slot' : Nat} {part part' : Part}
    (known : shape.parts[slot]? = some part) (known' : shape.parts[slot']? = some part')
    (same : part.path = part'.path) : slot = slot' := by
  have paths : (shape.parts.map (·.path))[slot]? = (shape.parts.map (·.path))[slot']? := by
    rw [List.getElem?_map, List.getElem?_map, known, known', Option.map_some, same,
      Option.map_some]
  have inside := (List.getElem?_eq_some_iff.mp known).1
  exact (List.getElem?_inj (by rwa [List.length_map]) shape.nodup_paths).mp paths

end Shape

/-! ## Records of variants -/

/-- The leaf of a variant's tag. -/
def Occurrence.tagPart (o : Occurrence) : Part := ⟨o.way ++ [.tag], tagSize o.arms, tagSize o.arms⟩

/-- A record counts the arms of a variant and names the slot of its tag, among parts whose slots
count from `base`. -/
structure VariantLayout.Marks (base : Nat) (parts : List Part) (v : VariantLayout)
    (o : Occurrence) : Prop where
  arms_eq : v.arms = o.arms
  tag : ∃ i, v.tag = base + i ∧ parts[i]? = some o.tagPart

namespace VariantLayout.Marks

variable {base : Nat} {parts : List Part} {v : VariantLayout} {o : Occurrence}

theorem append_left (h : Marks base parts v o) (more : List Part) :
    Marks base (parts ++ more) v o := by
  obtain ⟨i, tag, known⟩ := h.tag
  refine ⟨h.arms_eq, i, tag, ?_⟩
  rw [List.getElem?_append_left (List.getElem?_eq_some_iff.mp known).1]
  exact known

theorem append_right {earlier : List Part} (h : Marks (base + earlier.length) parts v o) :
    Marks base (earlier ++ parts) v o := by
  obtain ⟨i, tag, known⟩ := h.tag
  refine ⟨h.arms_eq, earlier.length + i, by omega, ?_⟩
  rw [List.getElem?_append_right (Nat.le_add_right _ _), Nat.add_sub_cancel_left]
  exact known

theorem under (h : Marks base parts v o) (step : Step) :
    Marks base (parts.map (Part.under step)) v (o.under step) := by
  obtain ⟨i, tag, known⟩ := h.tag
  refine ⟨h.arms_eq, i, tag, ?_⟩
  rw [List.getElem?_map, known]
  rfl

theorem renumber (h : Marks 0 parts v o) (slots : Nat) :
    Marks slots parts (v.renumber slots) o := by
  obtain ⟨i, tag, known⟩ := h.tag
  refine ⟨h.arms_eq, i, ?_, known⟩
  show v.tag + slots = slots + i
  omega

end VariantLayout.Marks

/-- Behind the records of a draft there are those of the variants in what was put into it. -/
def Draft.Records (before after : Draft) (parts : List Part) (found : List Occurrence) : Prop :=
  ∃ new, after.variants.toList = before.variants.toList ++ new ∧
    List.Forall₂ (VariantLayout.Marks before.slots parts) new found

namespace Draft.Records

variable {before now after : Draft} {parts earlier : List Part} {found more : List Occurrence}

theorem none (same : after.variants = before.variants) : Records before after parts [] :=
  ⟨[], by rw [same, List.append_nil], .nil⟩

theorem under (h : Records before after parts found) (step : Step) :
    Records before after (parts.map (Part.under step)) (found.map (Occurrence.under step)) := by
  obtain ⟨new, added, marks⟩ := h
  refine ⟨new, added, List.forall₂_map_right_iff.mpr ?_⟩
  exact marks.imp fun _ _ mark => mark.under step

theorem trans (first : Records before now earlier found)
    (slots : now.slots = before.slots + earlier.length) (second : Records now after parts more) :
    Records before after (earlier ++ parts) (found ++ more) := by
  obtain ⟨new, added, marks⟩ := first
  obtain ⟨new', added', marks'⟩ := second
  rw [slots] at marks'
  refine ⟨new ++ new', by rw [added', added, List.append_assoc], ?_⟩
  exact List.rel_append (marks.imp fun _ _ mark => mark.append_left parts)
    (marks'.imp fun _ _ mark => mark.append_right)

/-- One more shape after others, under a step of its own. -/
theorem branch {step : Nat → Step} {shapes : List Shape} {shape : Shape}
    (first : Records before now (Shape.branches step 0 shapes)
      (Shape.occurrencesAmong step 0 shapes))
    (slots : now.slots = before.slots + (Shape.branches step 0 shapes).length)
    (second : Records now after shape.parts shape.occurrences) :
    Records before after (Shape.branches step 0 (shapes ++ [shape]))
      (Shape.occurrencesAmong step 0 (shapes ++ [shape])) := by
  rw [Shape.branches_concat, Shape.occurrencesAmong_concat]
  exact first.trans slots (second.under _)

end Draft.Records

/-- The records of a template are those of the variants in its parts. -/
abbrev Template.Marks (t : Template) (shape : Shape) : Prop :=
  List.Forall₂ (VariantLayout.Marks 0 shape.parts) t.variants.toList shape.occurrences

variable {setting : Setting}

mutual

/-- Every variant in a shape that is put into a draft is recorded. -/
theorem Puts.records {shape : Shape} {before after : Draft} :
    Puts setting shape before after → before.slots ≤ maxSlots →
      Draft.Records before after shape.parts shape.occurrences
  | .leaf _ _ put, _ => by
    rw [Shape.occurrences]
    exact .none ((Draft.keepsReports_putLeaf _ _).of_ok put).1
  | .array _ inside put, room => by
    rw [Shape.parts, Shape.occurrences]
    obtain ⟨new, added, marks⟩ := (inside.records room).under (.element _)
    refine ⟨new, ?_, marks⟩
    rw [((Draft.keepsReports_putArray _ _).of_ok put).1]
    exact added
  | @Puts.variant _ shapes _ r span before _ _ _ tag inside _ put, _ => by
    have tagging := (ensures_putTag _).of_ok tag
    have kept := ((Draft.keepsReports_putLeaf _ _).of_ok tag).1
    obtain ⟨new, added, marks⟩ := (Draft.Records.none kept).trans tagging.slots_eq
      (inside.records tagging.slots_le rfl)
    have recorded := congrArg Draft.variants (Draft.of_putVariant put).2.1
    rw [Shape.parts, Shape.occurrences]
    refine ⟨new ++ [⟨before.slots, shapes.length, r.target, r.layout, r.required, r.isPerfect,
      span⟩], ?_, List.rel_append marks (.cons ⟨rfl, 0, rfl, rfl⟩ .nil)⟩
    rw [recorded, Array.toList_push, ← List.append_assoc]
    exact congrArg (· ++ _) added
  | .record inside, room => by
    rw [Shape.parts, Shape.occurrences]
    exact inside.records room
  | .struct made put, _ => by
    have copied := congrArg Draft.variants (Draft.of_embed put).1
    refine ⟨_, by rw [copied, Array.toList_append], ?_⟩
    rw [Array.toList_map, List.forall₂_map_left_iff]
    exact made.marks.imp fun _ _ mark => mark.renumber _

theorem PutsFields.records {shapes : List Shape} {before after : Draft} :
    PutsFields setting shapes before after → before.slots ≤ maxSlots →
      Draft.Records before after (Shape.branches .field 0 shapes)
        (Shape.occurrencesAmong .field 0 shapes)
  | .nil, _ => .none rfl
  | .concat earlier last, room => by
    have sofar := earlier.grows room
    exact (earlier.records room).branch sofar.slots_eq (last.records sofar.slots_le)

theorem PutsArms.records {shapes : List Shape} {arms : List Arm} {before now : Draft} :
    PutsArms setting shapes arms before now → before.slots ≤ maxSlots →
      before.container = .arm [] → Draft.Records before now (Shape.branches .arm 0 shapes)
        (Shape.occurrencesAmong .arm 0 shapes)
  | .nil, _, _ => .none rfl
  | .concat earlier last _, room, empty => by
    have sofar := earlier.collects room empty
    exact (earlier.records room empty).branch sofar.slots_eq (last.records sofar.slots_le)

theorem PutsBody.records {shapes : List Shape} {draft : Draft} :
    PutsBody setting shapes draft → Draft.Records .empty draft (Shape.branches .field 0 shapes)
      (Shape.occurrencesAmong .field 0 shapes)
  | .nil => .none rfl
  | .fixed earlier last => by
    have sofar := earlier.grows
    exact earlier.records.branch sofar.slots_eq (last.records sofar.slots_le)
  | .dynamic earlier _ => earlier.records

theorem Makes.marks {shapes : List Shape} {t : Template} :
    Makes setting shapes t → t.Marks (.record shapes)
  | .made body _ _ _ => by
    obtain ⟨new, added, marks⟩ := body.records
    rw [Template.Marks, Shape.parts, Shape.occurrences]
    exact added ▸ marks

end

/-! ## Layouts -/

namespace Layout

/-- What the tables of a layout hold of one leaf. -/
structure MirrorsPart (layout : Layout) (slot : Nat) (part : Part) : Prop where
  entry : ∃ field, layout.fields[slot]? = some field ∧ field.fieldId = slot ∧
    field.align.bytes = part.unit
  /-- One pack for every array around the leaf, outermost first. -/
  chain : ∃ ids packs, layout.packChain? slot = some ids ∧ ids.Nodup ∧
    ids.mapM layout.pack? = some packs ∧ packs.map (·.length) = lengths part.path ∧ Fits packs
  elements : ∀ indices, ∃ offset, layout.elementOffset .bits64 slot indices = some offset ∧
    (offset.isSome ↔ List.Forall₂ (· < ·) indices (lengths part.path))

/-- The record of a variant counts its arms, and its tag is the slot of the variant's tag. -/
structure MirrorsVariant (parts : List Part) (v : VariantLayout) (o : Occurrence) : Prop where
  arms_eq : v.arms = o.arms
  tag : parts[v.tag]? = some o.tagPart
  unique : ∀ slot part, parts[slot]? = some part → part.path = o.way ++ [.tag] → slot = v.tag

/-- The tables of a layout in terms of a shape. -/
structure Mirrors (layout : Layout) (shape : Shape) : Prop where
  size_eq : layout.fields.size = shape.parts.length
  parts : ∀ slot part, shape.parts[slot]? = some part → layout.MirrorsPart slot part
  variants : List.Forall₂ (MirrorsVariant shape.parts) layout.variants.toList shape.occurrences

variable {layout : Layout} {parts : List Part} {leaves : List Leaf} {slot : Nat} {part : Part}

/-- There is an offset for just the elements that there are. -/
theorem Expands.elementOffset_isSome (h : layout.Expands parts)
    (known : parts[slot]? = some part) (indices : List Nat) :
    ∃ offset, layout.elementOffset .bits64 slot indices = some offset ∧
      (offset.isSome ↔ List.Forall₂ (· < ·) indices (lengths part.path)) := by
  obtain ⟨ids, packs, chain, found, same⟩ := h.2 slot part known
  have inside := (List.getElem?_eq_some_iff.mp known).1
  rw [← h.1] at inside
  have answer : layout.elementOffset .bits64 slot indices = some ((elementDistance? packs
      indices).map fun n => Width.bits64.wrap (layout.fields[slot].offset + n)) := by
    unfold elementOffset
    rw [Array.getElem?_eq_getElem inside, chain]
    show (ids.mapM layout.pack?).bind _ = _
    rw [found]
    rfl
  refine ⟨_, answer, ?_⟩
  rw [Option.isSome_map, ← same, List.forall₂_map_right_iff]
  constructor
  · intro there
    obtain ⟨n, distance⟩ := Option.isSome_iff_exists.mp there
    exact forall₂_of_elementDistance? distance
  · intro below
    obtain ⟨n, distance, _⟩ := elementDistance?_of_lt below
    rw [distance]
    rfl

theorem Realizes.mirrorsPart (h : layout.Realizes .bits64 parts leaves)
    (nested : Nested layout.packs) (known : parts[slot]? = some part) :
    layout.MirrorsPart slot part := by
  obtain ⟨leaf, member, rfl, rfl⟩ := h.exists_leaf known
  have lies := h.arranged.lies leaf member
  have linked := h.linked leaf member
  constructor
  · exact ⟨leaf.entry, h.entry leaf member, rfl, lies.unit_eq⟩
  · obtain ⟨packs, found, fits, _⟩ := linked.fits nested
    obtain ⟨packs', found', same⟩ := mapM_pack?_linked parts linked
    obtain rfl := Option.some.inj (found.symm.trans found')
    refine ⟨leaf.packs, packs, h.packChain? member, linked.nodup, found, ?_, fits⟩
    rw [← lies.lengths_eq, ← same, List.map_map]
    rfl
  · exact h.expands.elementOffset_isSome known

end Layout

/-- A record of a variant in a shape names the one slot of its tag. -/
theorem VariantLayout.Marks.mirrorsVariant {shape : Shape} {v : VariantLayout} {o : Occurrence}
    (h : v.Marks 0 shape.parts o) : Layout.MirrorsVariant shape.parts v o := by
  obtain ⟨i, tag, known⟩ := h.tag
  rw [Nat.zero_add] at tag
  subst tag
  exact ⟨h.arms_eq, known, fun _ _ known' same => Shape.slot_unique known' known same⟩

/-- The tables of a layout are in the order of the shape of its root: a slot for every part, in
the packs of the arrays around it, and a record for every variant. -/
theorem layout_mirrors_shape {schema : Schema} {root : String} {options : Options}
    {layout : Layout} (laid : schema.layOut root options = .ok layout) :
    ∃ shape, schema.RootShape root shape ∧ layout.Mirrors shape := by
  obtain ⟨shapes, t, rootShape, makes, done⟩ := exists_makes_of_layOut laid
  obtain ⟨realized, _⟩ := (Template.ensures_toLayout makes.realizes).of_ok done
  have read := Template.of_toLayout done
  have nested : Nested layout.packs := by
    rw [read]
    exact makes.fitting.1
  refine ⟨_, rootShape, realized.size_eq, fun _ _ => realized.mirrorsPart nested, ?_⟩
  rw [read]
  exact makes.marks.imp fun _ _ mark => mark.mirrorsVariant

/-- The two slots of an item are repeated in its array, behind the tag. -/
theorem layout_mirrors_shape_samples :
    ∃ layout, samples.layOut "Sample" .default = .ok layout ∧
      (∃ ids packs, layout.packChain? 3 = some ids ∧ ids.mapM layout.pack? = some packs ∧
        packs.map (·.length) = [2, 3]) ∧
      layout.elementOffset .bits64 3 [1, 3] = some none ∧
      layout.variants.toList.map (fun v => (v.tag, v.arms)) = [(1, 2)] := by
  obtain ⟨layout, laid, _⟩ := samples_layOut
  obtain ⟨shape, rootShape, mirrors⟩ := layout_mirrors_shape laid
  obtain rfl := rootShape_unique rootShape rootShape_samples
  have byte : samplesShape.parts[3]? =
      some ⟨[.field 1, .element 2, .arm 1, .element 3], 1, 1⟩ := by cbv
  obtain ⟨_, chain, elements⟩ := mirrors.parts 3 _ byte
  obtain ⟨ids, packs, found, _, known, same, _⟩ := chain
  obtain ⟨offset, there, inside⟩ := elements [1, 3]
  refine ⟨layout, laid, ⟨ids, packs, found, known, same⟩, ?_, ?_⟩
  · have none : offset = none := by simpa [lengths] using inside
    rw [there, none]
  · have records := mirrors.variants
    have one : samplesShape.occurrences = [⟨[.field 1, .element 2], 2⟩] := by cbv
    rw [one] at records
    obtain ⟨v, rest, mirror, others, same⟩ := List.forall₂_cons_right_iff.mp records
    have tag := mirror.unique 1 _ (show samplesShape.parts[1]? = some _ from by cbv) rfl
    rw [same, List.forall₂_nil_right_iff.mp others]
    simp [← tag, mirror.arms_eq]

end PackedLayout
