import PackedLayout.Proofs.Ascending
import PackedLayout.Proofs.Derivations

/-!
# Where the variants of a layout come from

Every variant that a layout describes was resolved from arms that were collected in an engine. So
what holds of every resolution holds of every variant in a layout.

- `VariantLayout.Resolved`: a variant that describes a resolution;
- `Puts.resolved`: only such variants are put into a draft;
- `rootTemplate_resolved`: a root struct is laid out with such variants.
-/

namespace PackedLayout

/-- The variant describes the resolution of some collected arms. -/
def VariantLayout.Resolved (w : Width) (limit : Nat) (v : VariantLayout) : Prop :=
  ∃ arms r, (∀ arm ∈ arms, arm.Collected w) ∧ Resolution.ofArms w limit arms = .ok r ∧
    v.target = r.target ∧ v.layout = r.layout ∧ v.required = r.required ∧ v.perfect = r.isPerfect

/-- The zones of a variant that was resolved are in order. -/
theorem VariantLayout.Resolved.ascending {w : Width} {limit : Nat} {v : VariantLayout}
    (h : v.Resolved w limit) : v.target.Ascending ∧ v.layout.Ascending := by
  obtain ⟨_, r, collected, resolved, target, layout, _⟩ := h
  rw [target, layout]
  exact Resolution.ascending_ofArms collected resolved

/-- All of some variants are resolved. -/
def AllResolved (w : Width) (limit : Nat) (variants : Array VariantLayout) : Prop :=
  ∀ v ∈ variants, v.Resolved w limit

variable {w : Width} {limit : Nat} {setting : Setting} {span : Span} {draft : Draft}

theorem allResolved_empty (w : Width) (limit : Nat) : AllResolved w limit #[] :=
  fun v absent => absurd absent (Array.not_mem_empty v)

theorem AllResolved.append {variants others : Array VariantLayout}
    (h : AllResolved w limit variants) (h' : AllResolved w limit others) :
    AllResolved w limit (variants ++ others) := by
  intro v member
  obtain first | second := Array.mem_append.mp member
  · exact h v first
  · exact h' v second

/-! ## Drafts -/

namespace Draft

theorem ensures_embed_resolved {t : Template} (h : AllResolved w limit draft.variants)
    (h' : AllResolved w limit t.variants) :
    Ensures (fun _ => True) (AllResolved w limit ·.variants) (draft.embed w span t) := by
  unfold embed
  split
  · exact trivial
  · refine (keepsReports_putZones _).mono fun after same => ?_
    rw [same.1]
    refine h.append fun v member => ?_
    obtain ⟨other, listed, rfl⟩ := Array.mem_map.mp member
    exact h' other listed

theorem ensures_putVariant_resolved {options : Options} {tag arms : Nat} {collected : List Arm}
    {r : Resolution} (h : AllResolved w limit draft.variants)
    (all : ∀ arm ∈ collected, arm.Collected w)
    (resolved : Resolution.ofArms w limit collected = .ok r) :
    Ensures (fun _ => True) (AllResolved w limit ·.variants)
      (draft.putVariant w options span tag arms r) := by
  unfold putVariant
  split
  · exact trivial
  · refine (keepsReports_putZones _).mono fun after same => ?_
    rw [same.1]
    intro v member
    obtain earlier | rfl := Array.mem_push.mp member
    · exact h v earlier
    · exact ⟨collected, r, all, resolved, rfl, rfl, rfl, rfl⟩

end Draft

/-! ## Derivations -/

mutual

/-- Every variant that a shape puts into a draft is resolved. -/
theorem Puts.resolved {shape : Shape} {before after : Draft} :
    Puts setting shape before after → before.slots ≤ maxSlots →
      AllResolved setting.width setting.options.maxSearchBytes before.variants →
        AllResolved setting.width setting.options.maxSearchBytes after.variants
  | .leaf _ _ put, _, start => by
    rwa [((Draft.keepsReports_putLeaf _ _).of_ok put).1]
  | .array _ inside put, room, start => by
    rw [((Draft.keepsReports_putArray _ _).of_ok put).1]
    exact inside.resolved room start
  | .variant tag inside resolved put, _, start => by
    have tagging := (ensures_putTag _).of_ok tag
    have collects := inside.collects tagging.slots_le rfl
    have kept := inside.resolved tagging.slots_le (by
      rwa [((Draft.keepsReports_putLeaf _ _).of_ok tag).1])
    refine (Draft.ensures_putVariant_resolved ?_ collects.collected resolved).of_ok put
    exact kept
  | .record inside, room, start => inside.resolved room start
  | .struct made put, _, start => (Draft.ensures_embed_resolved start made.resolved).of_ok put

theorem PutsFields.resolved {shapes : List Shape} {before after : Draft} :
    PutsFields setting shapes before after → before.slots ≤ maxSlots →
      AllResolved setting.width setting.options.maxSearchBytes before.variants →
        AllResolved setting.width setting.options.maxSearchBytes after.variants
  | .nil, _, start => start
  | .concat earlier last, room, start =>
    last.resolved (earlier.grows room).slots_le (earlier.resolved room start)

theorem PutsArms.resolved {shapes : List Shape} {arms : List Arm} {before now : Draft} :
    PutsArms setting shapes arms before now → before.slots ≤ maxSlots →
      AllResolved setting.width setting.options.maxSearchBytes before.variants →
        AllResolved setting.width setting.options.maxSearchBytes now.variants
  | .nil, _, start => start
  | .concat earlier last _, room, start =>
    last.resolved (earlier.slots_le room) (earlier.resolved room start)

theorem PutsBody.resolved {shapes : List Shape} {draft : Draft} :
    PutsBody setting shapes draft →
      AllResolved setting.width setting.options.maxSearchBytes draft.variants
  | .nil => allResolved_empty _ _
  | .fixed earlier last => last.resolved earlier.grows.slots_le earlier.resolved
  | .dynamic earlier _ => earlier.resolved

theorem Makes.resolved {shapes : List Shape} {t : Template} :
    Makes setting shapes t → AllResolved setting.width setting.options.maxSearchBytes t.variants
  | .made body _ _ _ => body.resolved

end

/-- Every variant that a root struct is laid out with is resolved. -/
theorem rootTemplate_resolved (setting : Setting) (root : String) :
    Ensures (fun _ => True)
      (fun r => AllResolved setting.width setting.options.maxSearchBytes r.1.variants)
      (Engine.rootTemplate setting root .empty).1 := by
  cases made : (Engine.rootTemplate setting root .empty).1 with
  | error e => trivial
  | ok r =>
    obtain ⟨shapes, _, makes⟩ := exists_makes_of_rootTemplate made
    exact makes.resolved

end PackedLayout
