import PackedLayout.Variant.Boundaries
import PackedLayout.Variant.ZoneStep

/-!
# The storage of a variant

The zones are filled one after the other, as far as their targets. A zone may get larger than its
target; the next one starts where it really ends.
-/

namespace PackedLayout

structure Storage where
  /-- The arms with what they still have to place. -/
  arms : List Arm
  /-- Where the next zone starts. -/
  start : Nat := 0
  /-- The zones filled so far. -/
  steps : List ZoneStep := []
  ends : Boundaries := .zero
deriving DecidableEq

namespace Storage

/-- Fills the zone of a class as far as its target. -/
def placeZone (w : Width) (limit : Nat) (target : Boundaries) (s : Storage) (zone : Alignment) :
    Except Failure Storage :=
  if zone.isAligned s.start then do
    let step ← ZoneStep.fill w limit zone s.start (target.boundary zone) s.arms
    return {
      arms := step.after
      start := step.stop
      steps := s.steps ++ [step]
      ends := s.ends.setBoundary zone step.stop }
  else .error (.fault (.misalignedZone zone s.start))

/-- Places every field of every arm. -/
def place (w : Width) (limit : Nat) (target : Boundaries) (arms : List Arm) :
    Except Failure Storage := do
  let s ← Alignment.descending.foldlM (placeZone w limit target) { arms }
  match s.arms.find? fun arm => !arm.pending.isEmpty with
  | some arm => throw (.fault (.unplacedFields arm.index arm.pending.length))
  | none => return s

/-- The zone of a class. -/
def zone (w : Width) (s : Storage) (a : Alignment) : Zone :=
  ((s.steps.find? (·.zone == a)).map (ZoneStep.toZone w)).getD .empty

def zones (w : Width) (s : Storage) : PerClass Zone := .ofFn (s.zone w)

end Storage

end PackedLayout
