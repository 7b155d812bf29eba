import PackedLayout.SubsetSum.Sums

/-!
# Choosing a subset

A choice among some sizes is a mask: one Boolean for each size. `bestSubset` chooses a subset of
the greatest sum that is not above a target. It goes back from the last size and leaves a size
out whenever the earlier ones reach the sum without it, so earlier items are preferred.
`ChainTable.bestSubset` reads the same choice from one table of links. `firstFit` takes sizes in
order as long as they fit.
-/

namespace PackedLayout

/-- The items a mask takes. -/
def chosen {α : Type} (items : List α) (mask : List Bool) : List α :=
  ((items.zip mask).filter (·.2)).map (·.1)

/-- The sums reached so far, and each size, last first, with the sums reached before it. -/
structure SumHistory where
  reached : Sums
  steps : List (Nat × Sums) := []

namespace SumHistory

def start (target : Nat) : SumHistory := { reached := .zero (target + 1) }

/-- Adds a size, which no longer matters once the target is reached. -/
def add (target : Nat) (h : SumHistory) (size : Nat) : SumHistory where
  reached := if h.reached.contains target then h.reached else h.reached.withItem size
  steps := (size, h.reached) :: h.steps

def of (target : Nat) (sizes : List Nat) : SumHistory := sizes.foldl (add target) (start target)

end SumHistory

/-- What is left of a sum when a size is taken out of it if the sums before it lack it, and the
mask so far with the decision on that size in front. -/
def takeBack : Nat × List Bool → Nat × Sums → Nat × List Bool
  | (left, mask), (size, before) =>
    if before.contains left then (left, false :: mask) else (left - size, true :: mask)

/-- A subset of the greatest sum up to `target`; the sum that could not be taken apart otherwise. -/
def bestSubset (sizes : List Nat) (target : Nat) : Except Nat (List Bool) :=
  let history := SumHistory.of target sizes
  let (left, mask) := history.steps.foldl takeBack (history.reached.largest, [])
  if left = 0 then .ok mask else .error left

/-- What is left of a target, and the mask so far, last first, after one more size. -/
def takeIfFits : Nat × List Bool → Nat → Nat × List Bool
  | (left, mask), size =>
    if size ≤ left then (left - size, true :: mask) else (left, false :: mask)

/-- Takes sizes in order while they fit into the target. -/
def firstFit (sizes : List Nat) (target : Nat) : List Bool :=
  (sizes.foldl takeIfFits (target, [])).2.reverse

example : bestSubset [4, 4, 1, 1, 1, 1] 8 = .ok [true, true, false, false, false, false] := by
  rfl

example : bestSubset [3, 3] 4 = .ok [true, false] := by rfl

example : firstFit [8, 4, 2] 6 = [false, true, true] := by decide

end PackedLayout
