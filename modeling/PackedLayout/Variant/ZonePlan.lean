import PackedLayout.Variant.Boundaries
import PackedLayout.Variant.ZoneStep

/-!
# Planning the zones of a variant

For each class from 8 down to 2 the plan looks for the greatest boundary that every arm large
enough to reach it can end on exactly: with all of its pending fields of the class and larger
ones, and some of the smaller ones. After each class the zone is filled, so the next class
counts only what the arms still have. Where no such boundary exists, the zone gets the least end
that holds every arm's fields of the class.
-/

namespace PackedLayout

/-- The sizes an arm can give to a zone. -/
def Arm.zoneSums (w : Width) (zone : Alignment) (arm : Arm) : Sums :=
  let optional := arm.pending.filter fun item => item.align < zone
  Sums.reachable (arm.pendingBytes w (zone ≤ ·)) (optional.map (·.size))
    (arm.pendingBytes w fun _ => true)

/-- The greatest boundary from `lo` to `hi` whose distance from `start` is a common sum. -/
def boundaryWithin? (zone : Alignment) (start : Nat) (common : Sums) (lo hi : Nat) : Option Nat :=
  if hi < lo then none
  else (common.largestMultiple? zone.bytes (lo - start) (hi - start)).map (start + ·)

/-- The greatest boundary from `lo` to `hi` at a sum of every arm that reaches it, for further arms
in descending order of size. An arm counts from its own size down, where its sums are taken into
the common ones. -/
def commonBoundary? (w : Width) (zone : Alignment) (start lo : Nat) :
    Sums → Nat → List Arm → Option Nat
  | common, hi, [] => boundaryWithin? zone start common lo hi
  | common, hi, arm :: rest =>
    if arm.required < lo then boundaryWithin? zone start common lo hi
    else
      match boundaryWithin? zone start common (max lo (arm.required + 1)) hi with
      | some boundary => some boundary
      | none =>
        commonBoundary? w zone start lo (common.inter (arm.zoneSums w zone))
          (min hi arm.required) rest

/-- The greatest multiple of the class from `lo` to the size of the largest arm that every arm of
at least that size can end a zone on that begins at `start`. The arms are in descending order of
size, and `start` is a multiple of the class. -/
def exactBoundary? (w : Width) (zone : Alignment) (start lo : Nat) : List Arm → Option Nat
  | [] => none
  | largest :: rest =>
    let hi := zone.roundDown largest.required
    if hi < lo then none
    else commonBoundary? w zone start lo (largest.zoneSums w zone) hi rest

structure ZonePlan where
  boundaries : Boundaries := .zero
  /-- The classes that have no exact boundary, each with its fallback. -/
  degraded : List (Alignment × Nat) := []
  /-- The largest arm was above the limit, so every boundary is a fallback. -/
  skipped : Bool := false
  /-- The zones filled on the way. -/
  steps : List ZoneStep := []
deriving DecidableEq

namespace ZonePlan

/-- A plan under way. -/
structure Progress where
  arms : List Arm
  /-- Where the last zone really ended. -/
  reached : Nat := 0
  plan : ZonePlan

/-- Ends a zone at a boundary and fills it. -/
def Progress.close (w : Width) (limit : Nat) (zone : Alignment) (boundary : Nat) (p : Progress) :
    Except Failure Progress := do
  let step ← ZoneStep.fill w limit zone p.reached boundary p.arms
  return {
    arms := step.after
    reached := step.stop
    plan := { p.plan with
      boundaries := p.plan.boundaries.setBoundary zone boundary
      steps := p.plan.steps ++ [step] } }

/-- Whether some arm that is not exhausted has fields of the class. -/
def Progress.needs (w : Width) (zone : Alignment) (p : Progress) : Bool :=
  p.arms.any fun arm => 0 < arm.counts.bytes w zone && p.reached < arm.required

/-- The least safe end of a zone. -/
def Progress.leastEnd? (w : Width) (zone : Alignment) (p : Progress) : Option Nat :=
  w.checked (p.reached + (p.arms.map (Arm.pendingBytes w (zone ≤ ·))).foldl max 0)

/-- Notes that a class has no exact boundary, unless none was looked for. -/
def degrade (zone : Alignment) (fallback : Nat) (plan : ZonePlan) : ZonePlan :=
  if plan.skipped then plan else { plan with degraded := plan.degraded ++ [(zone, fallback)] }

/-- Finds the boundaries of the classes given, where `total` is the size of the largest arm. The
plan is complete early when the largest arm fits exactly. -/
def search (w : Width) (limit total : Nat) : List Alignment → Progress → Except Failure ZonePlan
  | [], p =>
    let last := max (max total p.reached) (p.plan.boundaries.boundary .two)
    .ok { p.plan with boundaries := p.plan.boundaries.setBoundary .one last }
  | zone :: rest, p =>
    if p.needs w zone then do
      let least ← orOverflow (p.leastEnd? w zone)
      let exact :=
        if p.plan.skipped then none else exactBoundary? w zone p.reached least p.arms
      match exact with
      | some boundary =>
        if boundary = total then
          return { p.plan with boundaries := p.plan.boundaries.endFrom zone boundary }
        else
          search w limit total rest (← p.close w limit zone boundary)
      | none =>
        let p := { p with plan := p.plan.degrade zone least }
        search w limit total rest (← p.close w limit zone least)
    else do
      search w limit total rest (← p.close w limit zone p.reached)

/-- The plan for some arms, which are in descending order of size. -/
def ofArms (w : Width) (limit : Nat) (arms : List Arm) : Except Failure ZonePlan :=
  match arms with
  | [] => .ok {}
  | largest :: _ =>
    search w limit largest.required [.eight, .four, .two]
      { arms, plan := { skipped := limit < largest.required } }

end ZonePlan

end PackedLayout
