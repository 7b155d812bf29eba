import PackedLayout.Alignment

/-!
# Zone boundaries

The storage that the arms of a variant share is cut into four zones, largest class first.
Boundaries say where each zone ends, counted from the start of the storage.
-/

namespace PackedLayout

structure Boundaries where
  ends : PerClass Nat := .fill 0
deriving DecidableEq

namespace Boundaries

def zero : Boundaries := {}

/-- Where the zone of a class ends. -/
def boundary (b : Boundaries) (zone : Alignment) : Nat := b.ends.get zone

def setBoundary (b : Boundaries) (zone : Alignment) (stop : Nat) : Boundaries :=
  ⟨b.ends.set zone stop⟩

/-- Ends the zone of a class and every smaller one at `stop`. -/
def endFrom (b : Boundaries) (zone : Alignment) (stop : Nat) : Boundaries :=
  (Alignment.descending.filter (· ≤ zone)).foldl (fun b a => b.setBoundary a stop) b

def zoneStart (b : Boundaries) (zone : Alignment) : Nat :=
  match zone.larger? with
  | none => 0
  | some larger => b.boundary larger

/-- The size of the zone of a class. -/
def space (b : Boundaries) (zone : Alignment) : Nat := b.boundary zone - b.zoneStart zone

/-- The size of the whole storage. -/
def total (b : Boundaries) : Nat := b.boundary .one

@[simp] theorem boundary_setBoundary (b : Boundaries) (zone other : Alignment) (stop : Nat) :
    (b.setBoundary zone stop).boundary other =
      if zone = other then stop else b.boundary other :=
  PerClass.get_set b.ends zone other stop

theorem boundary_endFrom (b : Boundaries) (zone other : Alignment) (stop : Nat) :
    (b.endFrom zone stop).boundary other =
      if other ≤ zone then stop else b.boundary other := by
  cases zone <;> cases other <;> rfl

end Boundaries

end PackedLayout
