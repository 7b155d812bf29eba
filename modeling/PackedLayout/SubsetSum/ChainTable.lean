/-!
# Best subsets by a table of links

For every sum up to a target, the table holds the last of the items that first reached the sum.
The item before it reached the sum without it, so the links lead from every sum that is reached
back to zero. An item is added in place, from the greatest sum down, so that no sum is reached with
one item used twice. `PackedLayout.bestSubset` finds the same subset from the sums that were reached
before each item.
-/

namespace PackedLayout

structure ChainTable (target : Nat) where
  links : Vector UInt32 (target + 1)
deriving DecidableEq

namespace ChainTable

variable {target : Nat}

/-- The link of a sum that is not reached. -/
def unreached : UInt32 := 0xFFFFFFFF

/-- The link of zero, which takes no item. The numbers of items are below it. -/
def origin : UInt32 := 0xFFFFFFFE

def start (target : Nat) : ChainTable target :=
  ⟨(Vector.replicate (target + 1) unreached).set 0 origin⟩

/-- Links each sum below `bound` to an item, from the greatest down to the item's size, if it is not
reached yet and the sum without the item is. -/
def linkDown (size : Nat) (item : UInt32) :
    (bound : Nat) → bound ≤ target + 1 → Vector UInt32 (target + 1) → Vector UInt32 (target + 1)
  | 0, _, links => links
  | sum + 1, within, links =>
    if size ≤ sum then
      linkDown size item sum (Nat.le_of_succ_le within)
        (if links[sum] = unreached ∧ links[sum - size] ≠ unreached then links.set sum item
          else links)
    else links

/-- Adds items in turn, the first of them with the number `i`, until the target is reached. -/
def addAll (chain : ChainTable target) (i : Nat) : List Nat → ChainTable target
  | [] => chain
  | size :: rest =>
    if size = 0 ∨ target < size then addAll chain (i + 1) rest
    else
      let chain : ChainTable target :=
        ⟨linkDown size (.ofNat i) (target + 1) (Nat.le_refl _) chain.links⟩
      if chain.links.get (Fin.last target) ≠ unreached then chain else addAll chain (i + 1) rest

/-- The greatest sum up to a bound that is reached, and zero if none is. -/
def highest (chain : ChainTable target) : (bound : Nat) → bound < target + 1 → Fin (target + 1)
  | 0, inside => ⟨0, inside⟩
  | sum + 1, inside =>
    if chain.links[sum + 1] ≠ unreached then ⟨sum + 1, inside⟩
    else highest chain sum (Nat.lt_of_succ_lt inside)

/-- Follows the links from a sum back to zero and puts the items in front of those picked so far;
the sum that could not be taken apart otherwise. An item that takes nothing off a sum is no link. -/
def walk (sizes : List Nat) (chain : ChainTable target) (sum : Nat) (inside : sum < target + 1)
    (picked : List Nat) : Except Nat (List Nat) :=
  if sum = 0 then .ok picked
  else
    let item := chain.links[sum]
    if item = unreached ∨ item = origin then .error sum
    else
      let left := sum - sizes.getD item.toNat 0
      if less : left < sum then
        walk sizes chain left (Nat.lt_trans less inside) (item.toNat :: picked)
      else .error sum
termination_by sum
decreasing_by exact less

/-- The positions of a subset of the greatest sum up to `target`, in ascending order. -/
def bestSubset (sizes : List Nat) (target : Nat) : Except Nat (List Nat) :=
  let chain := addAll (start target) 0 sizes
  let best := highest chain target (Nat.lt_succ_self target)
  walk sizes chain best best.isLt []

example : bestSubset [4, 4, 1, 1, 1, 1] 8 = .ok [0, 1] := by cbv

end ChainTable

end PackedLayout
