import Mathlib.Order.MinMax
import PackedLayout.Proofs.Derivations
import PackedLayout.Proofs.Elements
import PackedLayout.Proofs.StorageSize

/-!
# Storage and information

A shape carries as many bytes as its leaves have, where a variant counts its tag and the largest of
its arms. Storage never takes less, and takes no more where nothing is padded:

- `Shape.ideal`: the bytes that a shape carries;
- `Draft.Spends`, `Puts.spends`: what a shape takes in a draft;
- `fixedSize_ideal`: what a root struct takes.
-/

namespace PackedLayout

namespace Shape

mutual

/-- The bytes of a shape when nothing is padded. -/
def ideal : Shape → Nat
  | .leaf size _ => size
  | .array length element => length * element.ideal
  | .variant arms => (if arms.length ≤ 255 then 1 else 2) + largestIdeal arms
  | .record fields => totalIdeal fields

def totalIdeal : List Shape → Nat
  | [] => 0
  | shape :: rest => shape.ideal + totalIdeal rest

def largestIdeal : List Shape → Nat
  | [] => 0
  | shape :: rest => max shape.ideal (largestIdeal rest)

end

mutual

/-- There is no variant in the shape. -/
def Plain : Shape → Prop
  | .leaf _ _ => True
  | .array _ element => element.Plain
  | .variant _ => False
  | .record fields => AllPlain fields

def AllPlain : List Shape → Prop
  | [] => True
  | shape :: rest => shape.Plain ∧ AllPlain rest

end

variable {shape : Shape} {shapes others : List Shape}

theorem totalIdeal_concat : totalIdeal (shapes ++ [shape]) = totalIdeal shapes + shape.ideal := by
  induction shapes with
  | nil => simp [totalIdeal]
  | cons first rest ih => simp [totalIdeal, ih, Nat.add_assoc]

theorem largestIdeal_concat :
    largestIdeal (shapes ++ [shape]) = max (largestIdeal shapes) shape.ideal := by
  induction shapes with
  | nil => simp [largestIdeal]
  | cons first rest ih => simp [largestIdeal, ih, Nat.max_assoc]

theorem allPlain_concat : AllPlain (shapes ++ [shape]) ↔ AllPlain shapes ∧ shape.Plain := by
  induction shapes with
  | nil => simp [AllPlain]
  | cons first rest ih => simp [AllPlain, ih, and_assoc]

end Shape

/-- No warning is about padding. -/
def Unpadded (warnings : Array Warning) : Prop :=
  ∀ warning ∈ warnings, ∀ wasted, warning.degradation ≠ .padded wasted

theorem Unpadded.of_prefix {warnings more : Array Warning} (h : Unpadded more)
    (start : warnings.toList <+: more.toList) : Unpadded warnings := by
  intro warning member
  exact h warning (by simpa using start.subset (by simpa using member))

variable {setting : Setting} {shape : Shape} {shapes : List Shape} {arms : List Arm} {t : Template}
  {before mid now after : Draft}

/-! ## Drafts -/

/-- What is put into a draft takes `n` bytes at least, and no more if it is plain or nothing was
padded so far. -/
structure Draft.Spends (before after : Draft) (n : Nat) (plain : Prop) : Prop where
  least : before.bytes + n ≤ after.bytes
  exact_ : plain ∨ Unpadded after.warnings → after.bytes = before.bytes + n

theorem Draft.spends_nil (draft : Draft) (plain : Prop) : Spends draft draft 0 plain :=
  ⟨Nat.le_refl _, fun _ => rfl⟩

theorem Draft.Spends.trans {n m : Nat} {plain plain' : Prop} (first : Spends before mid n plain)
    (second : Spends mid after m plain') (warned : mid.warnings.toList <+: after.warnings.toList) :
    Spends before after (n + m) (plain ∧ plain') where
  least := by
    have := first.least
    have := second.least
    omega
  exact_ := by
    intro tight
    have here := first.exact_ (tight.imp And.left fun unpadded => unpadded.of_prefix warned)
    have there := second.exact_ (tight.imp_left And.right)
    omega

theorem Draft.bytes_putLeaf {w : Width} {span : Span} {draft : Draft} {align : Alignment}
    {size : Nat} (put : draft.putLeaf w span align size = .ok after) :
    after.bytes = draft.bytes + size :=
  Container.bytes_putAll (Draft.of_putLeaf put).2

theorem Draft.bytes_embed {w : Width} {span : Span} {draft : Draft} {parts : List Part}
    (h : t.Realizes w parts) (put : draft.embed w span t = .ok after) :
    after.bytes = draft.bytes + t.footprint.totalBytes .unbounded := by
  have items := Container.bytes_putAll (Draft.of_embed put).2
  rw [exactSize_zoneItems] at items
  rw [Draft.bytes, items, UnitCounts.totalBytes_unbounded]
  simp [Container.bytes, PerClass.toList_eq_map_get, Alignment.descending, h.get_sizedZones,
    h.bytes]
  rfl

theorem Draft.bytes_putVariant {w : Width} {options : Options} {span : Span} {limit tag count : Nat}
    {draft : Draft} {r : Resolution} (resolved : Resolution.ofArms w limit arms = .ok r)
    (put : draft.putVariant w options span tag count r = .ok after) :
    after.bytes = draft.bytes + r.layout.total := by
  have items := Container.bytes_putAll (Draft.of_putVariant put).2.2
  rwa [exactSize_zoneItems, Resolution.bytes_zones resolved] at items

/-- The footprint of a draft counts its bytes. -/
theorem Draft.Grows.totalBytes {w : Width} {draft : Draft} {parts : List Part}
    {footprint : UnitCounts} (grown : Draft.Grows w .empty draft parts)
    (counted : footprint? w draft.container.zones = some footprint) :
    footprint.totalBytes .unbounded = draft.bytes := by
  obtain ⟨whole, bytes⟩ := grown.body rfl
  rw [← bytes, UnitCounts.totalBytes_unbounded]
  simp only [(footprint?_spec whole counted).2]
  rfl

/-! ## Derivations -/

/-- The arms of a variant need what their shapes carry, and no more if nothing was padded. -/
structure ArmsSpend (shapes : List Shape) (arms : List Arm) (now : Draft) : Prop where
  least : Shape.largestIdeal shapes ≤ (arms.map (·.required)).foldl max 0
  exact_ : Unpadded now.warnings →
    (arms.map (·.required)).foldl max 0 = Shape.largestIdeal shapes

mutual

/-- A shape takes the bytes it carries, and no more if nothing is padded. -/
theorem Puts.spends {shape : Shape} {before after : Draft} :
    Puts setting shape before after → before.slots ≤ maxSlots →
      Draft.Spends before after shape.ideal shape.Plain
  | .leaf _ _ put, _ => by
    rw [Shape.ideal]
    exact ⟨Nat.le_of_eq (Draft.bytes_putLeaf put).symm, fun _ => Draft.bytes_putLeaf put⟩
  | @Puts.array _ length element _ before inner after _ inside put, room => by
    obtain ⟨least, exact_⟩ := inside.spends room
    obtain ⟨whole, bytes⟩ := (inside.grows room).body rfl
    have warned : after.warnings = inner.warnings :=
      ((Draft.keepsReports_putArray _ _).of_ok put).2
    have total : after.bytes = before.bytes + inner.bytes * length := by
      rw [Draft.bytes_putArray whole put, bytes]
      rfl
    have empty : Draft.bytes { before with container := .emptyBody } = 0 := rfl
    rw [empty, Nat.zero_add] at least exact_
    rw [Shape.ideal, Shape.Plain, Nat.mul_comm]
    constructor
    · have := Nat.mul_le_mul_right length least
      omega
    · intro tight
      rw [total, exact_ (warned ▸ tight)]
  | @Puts.variant _ shapes arms r span before tagged filled after tag inside resolved put, _ => by
    have tagging := (ensures_putTag _).of_ok tag
    have collects := inside.collects tagging.slots_le rfl
    obtain ⟨least, exact_⟩ := inside.spends tagging.slots_le rfl
    have room := Resolution.required_le_total collects.collected resolved
    have largest := (Resolution.exists_place resolved).2.1
    have tagBytes : tagged.bytes = before.bytes + tagSize shapes.length := Draft.bytes_putLeaf tag
    have total : after.bytes = _ := Draft.bytes_putVariant resolved put
    have same : Draft.bytes { filled with container := tagged.container } = tagged.bytes := rfl
    have warned := congrArg Draft.warnings (Draft.of_putVariant put).2.1
    rw [Shape.ideal, Shape.Plain]
    unfold tagSize at tagBytes
    constructor
    · omega
    · rintro (absurd | unpadded)
      · exact absurd.elim
      · have earlier : Unpadded filled.warnings := unpadded.of_prefix (by simp [warned])
        have full := Resolution.total_eq_required collects.collected resolved fun n member => by
          have listed : (⟨.padded n, span⟩ : Warning) ∈ after.warnings.toList := by
            simp [warned, member]
          exact unpadded ⟨.padded n, span⟩ (by simpa using listed) n rfl
        have same := exact_ earlier
        omega
  | .record inside, room => by
    rw [Shape.ideal, Shape.Plain]
    exact inside.spends room
  | .struct made put, _ => by
    obtain ⟨least, exact_⟩ := made.spends
    have total := Draft.bytes_embed made.realizes put
    have warned := congrArg Draft.warnings (Draft.of_embed put).1
    rw [Shape.ideal, Shape.Plain]
    constructor
    · omega
    · intro tight
      rw [total, exact_ (tight.imp_right fun unpadded warning member wasted =>
        unpadded warning (by simp [warned, member]) wasted)]

theorem PutsFields.spends {shapes : List Shape} {before after : Draft} :
    PutsFields setting shapes before after → before.slots ≤ maxSlots →
      Draft.Spends before after (Shape.totalIdeal shapes) (Shape.AllPlain shapes)
  | .nil, _ => Draft.spends_nil _ _
  | .concat earlier last, room => by
    rw [Shape.totalIdeal_concat, Shape.allPlain_concat]
    exact (earlier.spends room).trans (last.spends (earlier.grows room).slots_le) last.warnings

theorem PutsArms.spends {shapes : List Shape} {arms : List Arm} {before now : Draft} :
    PutsArms setting shapes arms before now → before.slots ≤ maxSlots →
      before.container = .arm [] → ArmsSpend shapes arms now
  | .nil, _, _ => ⟨Nat.le_refl _, fun _ => rfl⟩
  | @PutsArms.concat _ shapes shape arms arm _ now next earlier last made, room, empty => by
    obtain ⟨least, exact_⟩ := earlier.spends room empty
    obtain ⟨least', exact_'⟩ := last.spends (earlier.slots_le room)
    have sofar := earlier.collects room empty
    obtain ⟨whole, bytes⟩ := (last.grows sofar.slots_le).collected sofar.container
    obtain ⟨collected, _, pending⟩ := Arm.collected_of? whole made
    have required : arm.required = next.bytes := by
      rw [collected.required_eq, pending, bytes]
    have none : now.bytes = 0 := by
      rw [Draft.bytes, sofar.container]
      rfl
    have largest : ((arms ++ [arm]).map (·.required)).foldl max 0 =
        max ((arms.map (·.required)).foldl max 0) arm.required := by simp
    constructor
    · have : shape.ideal ≤ arm.required := by omega
      rw [largest, Shape.largestIdeal_concat]
      exact max_le_max least this
    · intro unpadded
      have := exact_' (.inr unpadded)
      rw [largest, Shape.largestIdeal_concat, exact_ (unpadded.of_prefix last.warnings)]
      omega

theorem PutsBody.spends {shapes : List Shape} {draft : Draft} :
    PutsBody setting shapes draft →
      Draft.Spends .empty draft (Shape.totalIdeal shapes) (Shape.AllPlain shapes)
  | .nil => Draft.spends_nil _ _
  | .fixed earlier last => by
    rw [Shape.totalIdeal_concat, Shape.allPlain_concat]
    exact earlier.spends.trans (last.spends earlier.grows.slots_le) last.warnings
  | .dynamic earlier inside => by
    obtain ⟨least, exact_⟩ := earlier.spends
    exact ⟨least, fun tight => exact_ (tight.imp_right fun unpadded =>
      unpadded.of_prefix (by simp))⟩

theorem Makes.spends {shapes : List Shape} {t : Template} :
    Makes setting shapes t → Shape.totalIdeal shapes ≤ t.footprint.totalBytes .unbounded ∧
      (Shape.AllPlain shapes ∨ Unpadded t.warnings →
        t.footprint.totalBytes .unbounded = Shape.totalIdeal shapes)
  | .made body counted _ _ => by
    obtain ⟨least, exact_⟩ := body.spends
    have empty : Draft.empty.bytes = 0 := rfl
    rw [empty, Nat.zero_add] at least exact_
    rw [body.grows.totalBytes counted]
    exact ⟨least, exact_⟩

end

/-! ## Layouts -/

/-- The fixed part of a root struct is its zones, one after the other. It takes the bytes that the
shape of the root carries at least, and no more if no padding is reported or there is no variant. -/
theorem fixedSize_ideal {schema : Schema} {root : String} {options : Options} {layout : Layout}
    (laid : schema.layOut root options = .ok layout) :
    layout.fixedSize = layout.zones.bytes .bits64 .eight + layout.zones.bytes .bits64 .four +
        layout.zones.bytes .bits64 .two + layout.zones.bytes .bits64 .one ∧
      ∃ shape, schema.RootShape root shape ∧ shape.ideal ≤ layout.fixedSize ∧
        (Unpadded layout.warnings → layout.fixedSize = shape.ideal) ∧
        (shape.Plain → layout.fixedSize = shape.ideal) := by
  obtain ⟨shapes, t, rootShape, makes, done⟩ := exists_makes_of_layOut laid
  obtain ⟨least, exact_⟩ := makes.spends
  have counts : t.footprint.Exact .bits64 := makes.realizes.counts
  rw [Template.of_toLayout done]
  dsimp only
  rw [counts.totalBytes]
  constructor
  · simp only [counts.bytes, UnitCounts.totalBytes_unbounded]
    omega
  · refine ⟨.record shapes, rootShape, ?_, fun unpadded => ?_, fun plain => ?_⟩
    · rw [Shape.ideal]
      exact least
    · rw [Shape.ideal]
      exact exact_ (.inr unpadded)
    · rw [Shape.ideal]
      rw [Shape.Plain] at plain
      exact exact_ (.inl plain)

/-- Two items of a tag and four bytes, after a number of two bytes. -/
theorem fixedSize_ideal_samples :
    ∃ layout, samples.layOut "Sample" .default = .ok layout ∧ Unpadded layout.warnings ∧
      samplesShape.ideal = 12 ∧ layout.fixedSize = 12 := by
  obtain ⟨layout, laid, none⟩ : ∃ layout, samples.layOut "Sample" .default = .ok layout ∧
    layout.warnings = #[] := ⟨_, by cbv, rfl⟩
  have unpadded : Unpadded layout.warnings := by simp [Unpadded, none]
  obtain ⟨_, shape, rootShape, _, reached, _⟩ := fixedSize_ideal laid
  obtain rfl := rootShape_unique rootShape rootShape_samples
  exact ⟨layout, laid, unpadded, by cbv, (reached unpadded).trans (by cbv)⟩

end PackedLayout
