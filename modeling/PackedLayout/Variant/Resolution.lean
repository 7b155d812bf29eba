import PackedLayout.Variant.Storage
import PackedLayout.Variant.ZonePlan

/-!
# Resolving a variant

The arms of a variant are ordered by size, their zones are planned, and their fields are placed.
The resolution says in which ways the storage is not free of waste.
-/

namespace PackedLayout

/-- Largest arm first, and arms of one size in their own order. -/
def byRequirement (arms : List Arm) : List Arm :=
  arms.mergeSort fun a b =>
    b.required < a.required || (a.required == b.required && a.index ≤ b.index)

structure Resolution where
  /-- The size of the largest arm. -/
  required : Nat
  plan : ZonePlan
  storage : Storage
  /-- The plan's first, then the padding. -/
  degradations : List Degradation
deriving DecidableEq

/-- What a plan has to say about the storage. -/
def ZonePlan.degradations (limit required : Nat) (plan : ZonePlan) : List Degradation :=
  (if plan.skipped then [.searchSkipped required limit] else []) ++
    plan.degraded.map fun (zone, boundary) => .noPerfectBoundary zone boundary

/-- The bytes of the storage above the largest arm. -/
def Storage.padding (required : Nat) (s : Storage) : List Degradation :=
  if required < s.ends.total then [.padded (s.ends.total - required)] else []

namespace Resolution

def ofArms (w : Width) (limit : Nat) (arms : List Arm) : Except Failure Resolution := do
  let arms := byRequirement arms
  let required := (arms.head?.map (·.required)).getD 0
  let plan ← ZonePlan.ofArms w limit arms
  let storage ← Storage.place w limit plan.boundaries arms
  return {
    required
    plan
    storage
    degradations := plan.degradations limit required ++ storage.padding required }

def isPerfect (r : Resolution) : Bool := r.degradations.isEmpty

/-- The boundaries that were planned. -/
def target (r : Resolution) : Boundaries := r.plan.boundaries

/-- The boundaries the fields led to. -/
def layout (r : Resolution) : Boundaries := r.storage.ends

end Resolution

end PackedLayout
