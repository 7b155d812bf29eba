import PackedLayout.Proofs.Drafting

/-!
# Exact arithmetic never overflows

In exact arithmetic every checked size is there. So the storage of a variant is always made, and
putting something into a draft only fails for want of slots.

- `Resolution.exists_ofArms`: every variant is resolved;
- `Draft.exists_putZones`, `exists_putArray`, `exists_putVariant`: zones, arrays and variants are
  put in;
- `Draft.exists_putLeaf`, `exists_embed`: so are leaves and structs if there are slots for them.
-/

namespace PackedLayout

variable {limit start boundary total : Nat} {zone : Alignment} {arms : List Arm} {arm : Arm}

/-- The run may fail, but not for the size of something. -/
abbrev NoOverflow {α : Type} (run : Except Failure α) : Prop :=
  Ensures (· ≠ .overflow) (fun _ => True) run

theorem noOverflow_checked (n : Nat) :
    NoOverflow (orOverflow (Width.unbounded.checked n)) := trivial

theorem noOverflow_bind {α β : Type} {run : Except Failure α} {next : α → Except Failure β}
    (first : NoOverflow run) (second : ∀ a, NoOverflow (next a)) : NoOverflow (run >>= next) :=
  first.bind fun a _ => second a

/-- A run that can only fail for a size, and does not, ends well. -/
theorem exists_of_noOverflow {α : Type} {value : α → Prop} {run : Except Failure α}
    (never : NoOverflow run) (h : Ensures (· = .overflow) value run) : ∃ a, run = .ok a := by
  cases run with
  | ok a => exact ⟨a, rfl⟩
  | error e => exact absurd h never

/-! ## Variants -/

theorem Arm.noOverflow_fill (capacity : Nat) :
    NoOverflow (arm.fill .unbounded limit zone capacity) := by
  rw [fill_eq, ready]
  split
  · exact nofun
  · rw [Width.checked_unbounded]
    exact trivial

theorem ZoneStep.noOverflow_fill :
    NoOverflow (ZoneStep.fill .unbounded limit zone start boundary arms) := by
  have each : Ensures (· ≠ Failure.overflow) (List.Forall₂ (fun _ _ => True) arms)
      (arms.mapM (Arm.fill .unbounded limit zone (boundary - start))) :=
    Ensures.mapM fun arm _ => arm.noOverflow_fill _
  exact each.bind fun _ _ => noOverflow_bind (noOverflow_checked _) fun _ =>
    noOverflow_bind (noOverflow_checked _) fun _ => trivial

theorem Storage.noOverflow_place (target : Boundaries) :
    NoOverflow (place .unbounded limit target arms) := by
  refine noOverflow_bind (Ensures.foldlM (fun _ _ => True) (fun zone _ s _ => ?_) trivial)
    fun s => ?_
  · unfold placeZone
    split
    · exact noOverflow_bind ZoneStep.noOverflow_fill fun _ => trivial
    · exact nofun
  · split
    · exact nofun
    · exact trivial

theorem ZonePlan.noOverflow_search (zones : List Alignment) (p : Progress) :
    NoOverflow (search .unbounded limit total zones p) := by
  induction zones generalizing p with
  | nil => exact trivial
  | cons zone rest ih =>
    have closed (boundary : Nat) (q : Progress) :
        NoOverflow
          (q.close .unbounded limit zone boundary >>= search .unbounded limit total rest) :=
      noOverflow_bind (noOverflow_bind ZoneStep.noOverflow_fill fun _ => trivial) ih
    unfold search
    split
    · refine noOverflow_bind (noOverflow_checked _) fun least => ?_
      dsimp only
      split
      · split
        · exact trivial
        · exact closed _ _
      · exact closed _ _
    · exact closed _ _

/-- Every variant is resolved. -/
theorem Resolution.exists_ofArms (limit : Nat) (arms : List Arm) :
    ∃ r, ofArms .unbounded limit arms = .ok r := by
  refine exists_of_noOverflow (noOverflow_bind ?_ fun plan => noOverflow_bind
    (Storage.noOverflow_place _) fun _ => trivial) (ensures_resolution .unbounded limit arms)
  unfold ZonePlan.ofArms
  split
  · exact trivial
  · exact ZonePlan.noOverflow_search _ _

/-- Every arm is counted. -/
theorem Arm.exists_of? (index : Nat) (fields : List Item) :
    ∃ arm, of? .unbounded index fields = some arm := by
  have counted (sofar : UnitCounts × Nat) :
      ∃ last, fields.foldlM (count? .unbounded) sofar = some last := by
    induction fields generalizing sofar with
    | nil => exact ⟨sofar, rfl⟩
    | cons item rest ih =>
      rw [List.foldlM_cons]
      exact ih _
  obtain ⟨last, counted⟩ := counted (.empty, 0)
  unfold of?
  rw [counted]
  exact ⟨_, rfl⟩

theorem exists_footprint? (zones : PerClass Zone) :
    ∃ footprint, footprint? .unbounded zones = some footprint := ⟨_, rfl⟩

/-! ## Drafts -/

namespace Draft

variable {draft : Draft} {span : Span}

theorem exists_put (item : Item) : ∃ after, draft.put .unbounded span item = .ok after := by
  unfold put
  cases draft.container with
  | body zones => exact ⟨_, rfl⟩
  | arm items => exact ⟨_, rfl⟩

theorem exists_foldlM {α : Type} {step : Draft → α → Except LayoutError Draft}
    (each : ∀ draft x, ∃ after, step draft x = .ok after) (xs : List α) (draft : Draft) :
    ∃ after, xs.foldlM step draft = .ok after := by
  induction xs generalizing draft with
  | nil => exact ⟨draft, rfl⟩
  | cons x rest ih =>
    obtain ⟨next, ran⟩ := each draft x
    rw [List.foldlM_cons, bind_eq_of_ok ran]
    exact ih next

theorem exists_putZones (zones : PerClass Zone) :
    ∃ after, draft.putZones .unbounded span zones = .ok after := by
  refine exists_foldlM (fun now a => ?_) _ draft
  split
  · exact ⟨_, rfl⟩
  · exact exists_put _

theorem exists_putArray (length : Nat) (element : PerClass Zone) :
    ∃ after, draft.putArray .unbounded span length element = .ok after := by
  unfold putArray
  obtain ⟨footprint, counted⟩ := exists_footprint? element
  rw [counted]
  refine exists_foldlM (fun now a => ?_) _ draft
  unfold putPack
  split
  · exact ⟨_, rfl⟩
  · exact exists_put _

theorem exists_putLeaf (align : Alignment) (size : Nat) (room : draft.slots < maxSlots) :
    ∃ after, draft.putLeaf .unbounded span align size = .ok after := by
  unfold putLeaf
  rw [if_pos room]
  exact exists_put _

theorem exists_embed {t : Template} (room : draft.slots + t.slots ≤ maxSlots) :
    ∃ after, draft.embed .unbounded span t = .ok after := by
  unfold embed
  rw [if_neg (Nat.not_lt.mpr room)]
  exact exists_putZones _

/-- A variant is put in if it need not be free of waste. -/
theorem exists_putVariant {options : Options} (imperfect : options.requirePerfect = false)
    (tag arms : Nat) (r : Resolution) :
    ∃ after, draft.putVariant .unbounded options span tag arms r = .ok after := by
  unfold putVariant
  rw [imperfect]
  exact exists_putZones _

end Draft

end PackedLayout
