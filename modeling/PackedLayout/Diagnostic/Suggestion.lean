import PackedLayout.Text.EditDistance

/-!
# Suggestions for misspelled names

The candidate closest to a name, if it is close enough. Closeness is edit distance; the bound
depends on the length of the name in bytes.
-/

namespace PackedLayout

/-- How far a suggestion may be from a name. -/
def maxDistance (name : String) : Nat :=
  if name.utf8ByteSize ≤ 2 then 1 else if name.utf8ByteSize ≤ 5 then 2 else 3

/-- The candidate and its distance, if it is close enough. A candidate whose length in bytes is
too different is not measured. -/
def distance? (name candidate : String) : Option Nat :=
  let bound := maxDistance name
  let here := name.utf8ByteSize
  let there := candidate.utf8ByteSize
  if bound < (here - there) + (there - here) then none
  else
    let distance := editDistance name.toList candidate.toList
    if distance ≤ bound then some distance else none

/-- The better of the best candidate so far and another one; the earlier wins a draw. -/
def closer (name : String) (best : Option (String × Nat)) (candidate : String) :
    Option (String × Nat) :=
  match distance? name candidate, best with
  | none, best => best
  | some distance, none => some (candidate, distance)
  | some distance, some (_, least) => if distance < least then some (candidate, distance) else best

def closest? (name : String) (candidates : List String) : Option String :=
  (candidates.foldl (closer name) none).map (·.1)

def suggestion? (name : String) (candidates : List String) : Option String :=
  (closest? name candidates).map fun closest => s!"did you mean `{closest}`?"

end PackedLayout
