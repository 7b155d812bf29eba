import PackedLayout.Variant.Arm

/-!
# Filling one zone

A zone is filled for all arms at once: each makes a stack of its own at the same place. The zone
is as large as the highest stack, rounded up to its class. The search for boundaries and the
placement of the fields go through the same steps, so they agree on which field lands where.
-/

namespace PackedLayout

structure ZoneStep where
  zone : Alignment
  start : Nat
  capacity : Nat
  /-- The arms before the step. -/
  before : List Arm
  /-- The arms after the step. -/
  after : List Arm
  /-- What each arm placed. -/
  armStacks : List Stack
  size : Nat
  /-- `start + size`. -/
  stop : Nat
deriving DecidableEq

namespace ZoneStep

/-- The height of the highest of some stacks. -/
def highest (armStacks : List Stack) : Nat := (armStacks.map (·.height)).foldl max 0

/-- Fills the zone of a class from `start`, as far as `boundary` if the arms' fields of the class
leave room. -/
def fill (w : Width) (limit : Nat) (zone : Alignment) (start boundary : Nat) (arms : List Arm) :
    Except Failure ZoneStep := do
  let capacity := boundary - start
  let filled ← arms.mapM (Arm.fill w limit zone capacity)
  let armStacks := filled.map (·.2)
  let size ← orOverflow (zone.roundUp? w (highest armStacks))
  let stop ← orOverflow (w.checked (start + size))
  return { zone, start, capacity, before := arms, after := filled.map (·.1), armStacks, size, stop }

/-- The zone with the leaves of every stack. -/
def toZone (w : Width) (step : ZoneStep) : Zone :=
  ⟨step.size, step.armStacks.flatMap (Stack.leaves w)⟩

end ZoneStep

end PackedLayout
