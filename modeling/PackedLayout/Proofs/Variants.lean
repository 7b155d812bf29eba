import PackedLayout.Proofs.Templates
import PackedLayout.Proofs.ZeroWaste

/-!
# Variants without waste

The arms that are gone through in an engine are collected from whole fields, so what a search
without degraded classes asks for is what the variant gets.
-/

namespace PackedLayout

/-- Where no class of a variant is degraded and the search is not skipped, the storage is the one
that was searched for: it is as large as the largest arm, and the fields of every arm tile the
storage from its start up to the size of the arm. -/
theorem variant_without_waste (setting : Setting) (structs depth : Nat) (span : Span)
    (ids : List TypeId) {draft after : Draft} {cache : Cache} {arms : List Arm} {plan : ZonePlan}
    (sound : cache.Sound setting.schema setting.width) (room : draft.slots ≤ maxSlots)
    (empty : draft.container = .arm [])
    (walked : (collectArms setting.width span
      (layOutType setting (template setting structs) depth) 0 [] ids draft cache).1 =
        .ok (arms, after))
    (planned : ZonePlan.ofArms setting.width setting.options.maxSearchBytes (byRequirement arms) =
      .ok plan)
    (searched : plan.skipped = false) (undegraded : plan.degraded = []) :
    ∃ r, Resolution.ofArms setting.width setting.options.maxSearchBytes arms = .ok r ∧
      r.plan = plan ∧ r.layout = r.target ∧ r.layout.total = r.required ∧
      r.required = largestSize (byRequirement arms) ∧ (∀ arm ∈ arms, arm.required ≤ r.required) ∧
      r.degradations = [] ∧ r.isPerfect = true ∧
      ∀ (k : Nat) arm, (byRequirement arms)[k]? = some arm →
        Tiles 0 (r.storage.placed k) arm.required ∧
          ((r.storage.placed k).map (·.2)).Perm arm.pending := by
  have lays := keeps_layOutType (keeps_template setting structs) depth
  have start : Collects setting.width draft draft [] (List.reverse []) := collects_nil room empty
  obtain ⟨_, _, collects⟩ := (keeps_collectArms lays ids start cache sound).2.of_ok walked
  exact resolution_without_waste collects.collected planned searched undegraded

/-- A schema with two records of 12 bytes and a string of 5. -/
def readings : Setting where
  schema.types := ⟨#[⟨.primitive .uint64, .dummy⟩, ⟨.primitive .uint32, .dummy⟩,
    ⟨.primitive .uint16, .dummy⟩, ⟨.fixedString 5, .dummy⟩,
    ⟨.record [⟨"a", ⟨0⟩, .dummy⟩, ⟨"b", ⟨1⟩, .dummy⟩], .dummy⟩,
    ⟨.record [⟨"a", ⟨1⟩, .dummy⟩, ⟨"b", ⟨2⟩, .dummy⟩, ⟨"c", ⟨1⟩, .dummy⟩, ⟨"d", ⟨2⟩, .dummy⟩],
      .dummy⟩]⟩
  options.maxSearchBytes := 64

/-- The arms of the variant of the three. -/
def readingArms : List Arm :=
  [⟨0, ⟨⟨1, 1, 0, 0⟩⟩, 12,
      [some ⟨8, .eight, [⟨0, .eight, 0, []⟩]⟩, some ⟨4, .four, [⟨1, .four, 0, []⟩]⟩]⟩,
    ⟨1, ⟨⟨0, 2, 2, 0⟩⟩, 12,
      [some ⟨4, .four, [⟨2, .four, 0, []⟩]⟩, some ⟨2, .two, [⟨3, .two, 0, []⟩]⟩,
      some ⟨4, .four, [⟨4, .four, 0, []⟩]⟩, some ⟨2, .two, [⟨5, .two, 0, []⟩]⟩]⟩,
    ⟨2, ⟨⟨0, 0, 0, 5⟩⟩, 5, [some ⟨5, .one, [⟨6, .one, 0, []⟩]⟩]⟩]

theorem variant_without_waste_readings :
    ∃ after plan r,
      (collectArms .bits64 .dummy (layOutType readings (template readings 0) 2) 0 []
        [⟨4⟩, ⟨5⟩, ⟨3⟩] { Draft.empty with container := .arm [] } .empty).1 =
          .ok (readingArms, after) ∧
      ZonePlan.ofArms .bits64 64 (byRequirement readingArms) = .ok plan ∧
      Resolution.ofArms .bits64 64 readingArms = .ok r ∧ r.layout = plan.boundaries ∧
      r.layout.total = 12 ∧ r.isPerfect = true ∧ Tiles 0 (r.storage.placed 1) 12 ∧
      Tiles 0 (r.storage.placed 2) 5 := by
  obtain ⟨after, walked⟩ : ∃ after,
      (collectArms .bits64 .dummy (layOutType readings (template readings 0) 2) 0 []
        [⟨4⟩, ⟨5⟩, ⟨3⟩] { Draft.empty with container := .arm [] } .empty).1 =
          .ok (readingArms, after) := ⟨_, rfl⟩
  have order : byRequirement readingArms = readingArms :=
    byRequirement_eq (.refl _) (by decide) (by decide)
  have searched : (ZonePlan.ofArms .bits64 64 readingArms).map
      (fun p => (p.skipped, p.degraded)) = .ok (false, []) := by decide
  cases planned : ZonePlan.ofArms .bits64 64 readingArms with
  | error e =>
    rw [planned] at searched
    contradiction
  | ok plan =>
    rw [planned] at searched
    obtain ⟨skipped, degraded⟩ := Prod.mk.inj (Except.ok.inj searched)
    rw [← order] at planned
    obtain ⟨r, resolved, rfl, same, total, required, _, _, perfect, tiles⟩ :=
      variant_without_waste readings 0 2 .dummy [⟨4⟩, ⟨5⟩, ⟨3⟩]
        (fun _ absent => absurd absent List.not_mem_nil) (Nat.zero_le _) rfl walked planned
        skipped degraded
    rw [order] at tiles required
    exact ⟨after, r.plan, r, walked, planned, resolved, same, total.trans required, perfect,
      (tiles 1 _ rfl).1, (tiles 2 _ rfl).1⟩

end PackedLayout
