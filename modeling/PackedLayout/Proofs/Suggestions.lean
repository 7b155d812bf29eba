import PackedLayout.Diagnostic.Suggestion
import PackedLayout.Proofs.Edits

/-!
# The closest candidate

The suggestion for a name is the earliest of the nearest candidates, among those whose length in
bytes is about that of the name. A candidate that is skipped for its length may be the nearest one
if the texts have characters of several bytes; with one byte to a character none is skipped that is
close enough.

- `IsClosest`: the earliest of the candidates that take the fewest edits;
- `Best`, `Best.closer`: what the search has found so far, and that each candidate keeps it so;
- `suggestion?_closest`: the suggestion is the closest of the candidates of about the same length,
  and the closest of all if no candidate that is close enough is skipped;
- `suggestion?_passes_over`: a candidate that is one edit away is skipped for one that is three.
-/

namespace PackedLayout

/-- Of the candidates that are considered, the earliest of those that take the fewest edits, or
nothing if all of them take too many. -/
def IsClosest (considered : String → Prop) (name : String) (candidates : List String) :
    Option String → Prop
  | none => ∀ c ∈ candidates, considered c → ∀ n, Edits n name.toList c.toList →
    maxDistance name < n
  | some c => considered c ∧ ∃ before after n, candidates = before ++ c :: after ∧
    IsLeast {n | Edits n name.toList c.toList} n ∧ n ≤ maxDistance name ∧
    (∀ d ∈ before, considered d → ∀ m, Edits m name.toList d.toList → n < m) ∧
    ∀ d ∈ after, considered d → ∀ m, Edits m name.toList d.toList → n ≤ m

/-- The lengths in bytes differ by no more than the bound. -/
def AlikeInSize (name candidate : String) : Prop :=
  (name.utf8ByteSize - candidate.utf8ByteSize) + (candidate.utf8ByteSize - name.utf8ByteSize) ≤
    maxDistance name

instance (name candidate : String) : Decidable (AlikeInSize name candidate) :=
  inferInstanceAs (Decidable (_ ≤ _))

variable {name c d : String} {candidates done : List String} {n m : Nat}

theorem distance?_eq_some : distance? name c = some n ↔
    AlikeInSize name c ∧ editDistance name.toList c.toList = n ∧ n ≤ maxDistance name := by
  unfold distance? AlikeInSize
  dsimp only
  split
  · rename_i apart
    exact ⟨nofun, fun h => absurd h.1 (Nat.not_le.mpr apart)⟩
  · rename_i alike
    split
    · rename_i near
      refine ⟨fun same => ?_, fun h => congrArg some h.2.1⟩
      cases same
      exact ⟨Nat.not_lt.mp alike, rfl, near⟩
    · rename_i far
      refine ⟨nofun, fun ⟨_, same, le⟩ => absurd (same ▸ le) far⟩

/-- A bound on what a candidate is measured at is a bound on the edits it takes, as far as it is
measured at all. -/
theorem le_of_edits (alike : AlikeInSize name d) (small : n ≤ maxDistance name + 1)
    (measured : ∀ k, distance? name d = some k → n ≤ k) (edits : Edits m name.toList d.toList) :
    n ≤ m := by
  have least := (leastEdits_editDistance name.toList d.toList).2 edits
  by_cases near : editDistance name.toList d.toList ≤ maxDistance name
  · exact Nat.le_trans (measured _ (distance?_eq_some.mpr ⟨alike, rfl, near⟩)) least
  · omega

/-! ## The search -/

/-- The best of the candidates so far: each one before takes more edits, and each one behind at
least as many, as far as they are measured. -/
def Best (name : String) (done : List String) : Option (String × Nat) → Prop
  | none => ∀ c ∈ done, distance? name c = none
  | some (c, n) => ∃ before after, done = before ++ c :: after ∧ distance? name c = some n ∧
    (∀ d ∈ before, ∀ m, distance? name d = some m → n < m) ∧
    ∀ d ∈ after, ∀ m, distance? name d = some m → n ≤ m

namespace Best

variable {best : Option (String × Nat)}

/-- A candidate that is no better leaves the best one in place. -/
theorem stay (h : Best name done (some (c, n)))
    (worse : ∀ m, distance? name d = some m → n ≤ m) : Best name (done ++ [d]) (some (c, n)) := by
  obtain ⟨before, after, rfl, measured, earlier, later⟩ := h
  refine ⟨before, after ++ [d], by simp, measured, earlier, fun other member => ?_⟩
  obtain listed | last := List.mem_append.mp member
  · exact later other listed
  · rwa [List.mem_singleton.mp last]

theorem le_of_some (h : Best name done (some (c, n))) (member : d ∈ done)
    (measured : distance? name d = some m) : n ≤ m := by
  obtain ⟨before, after, rfl, here, earlier, later⟩ := h
  obtain listed | listed := List.mem_append.mp member
  · exact Nat.le_of_lt (earlier d listed m measured)
  · obtain rfl | listed := List.mem_cons.mp listed
    · cases here.symm.trans measured
      exact Nat.le_refl n
    · exact later d listed m measured

theorem closer (h : Best name done best) (d : String) :
    Best name (done ++ [d]) (PackedLayout.closer name best d) := by
  unfold PackedLayout.closer
  cases measured : distance? name d with
  | none =>
    cases best with
    | none =>
      intro c member
      obtain listed | last := List.mem_append.mp member
      · exact h c listed
      · rwa [List.mem_singleton.mp last]
    | some found => exact h.stay fun m here => absurd (measured.symm.trans here) nofun
  | some m =>
    cases best with
    | none =>
      refine ⟨done, [], rfl, measured, fun c member k here => ?_, nofun⟩
      exact absurd ((h c member).symm.trans here) nofun
    | some found =>
      dsimp only
      split
      · rename_i better
        refine ⟨done, [], rfl, measured, fun c member k here => ?_, nofun⟩
        exact Nat.lt_of_lt_of_le better (h.le_of_some member here)
      · rename_i worse
        refine h.stay fun k here => ?_
        cases measured.symm.trans here
        exact Nat.not_lt.mp worse

theorem foldl (h : Best name done best) (candidates : List String) :
    Best name (done ++ candidates) (candidates.foldl (PackedLayout.closer name) best) := by
  induction candidates generalizing done best with
  | nil => rwa [List.append_nil]
  | cons d rest ih =>
    have further := ih (h.closer d)
    rwa [List.append_assoc] at further

/-- The best candidate that is measured is the closest of those of about the same length. -/
theorem isClosest (h : Best name done best) :
    IsClosest (AlikeInSize name) name done (best.map (·.1)) := by
  cases best with
  | none =>
    intro c member alike n edits
    refine le_of_edits alike (Nat.le_refl _) (fun k measured => ?_) edits
    exact absurd ((h c member).symm.trans measured) nofun
  | some found =>
    obtain ⟨c, n⟩ := found
    obtain ⟨before, after, rfl, here, earlier, later⟩ := h
    obtain ⟨alike, rfl, near⟩ := distance?_eq_some.mp here
    refine ⟨alike, before, after, _, rfl, leastEdits_editDistance _ _, near,
      fun d member alike m edits => ?_, fun d member alike m edits => ?_⟩
    · exact le_of_edits alike (Nat.succ_le_succ near) (earlier d member) edits
    · exact le_of_edits alike (Nat.le_succ_of_le near) (later d member) edits

end Best

/-! ## All candidates -/

/-- A candidate that is skipped takes more edits than the bound, if no character has more than one
byte. -/
theorem alikeInSize_of_edits (single : name.utf8ByteSize = name.length)
    (single' : c.utf8ByteSize = c.length) (edits : Edits n name.toList c.toList)
    (few : n ≤ maxDistance name) : AlikeInSize name c := by
  have longer := edits.length_le
  have shorter := edits.symm.length_le
  simp only [String.length_toList] at longer shorter
  unfold AlikeInSize
  omega

/-- The closest of the candidates that are considered is the closest of all, if all that are close
enough are considered. -/
theorem IsClosest.of_all {considered : String → Prop} {found : Option String}
    (h : IsClosest considered name candidates found)
    (all : ∀ c ∈ candidates, ∀ n ≤ maxDistance name, Edits n name.toList c.toList →
      considered c) :
    IsClosest (fun _ => True) name candidates found := by
  cases found with
  | none =>
    intro c member _ n edits
    by_cases few : n ≤ maxDistance name
    · exact h c member (all c member n few edits) n edits
    · exact Nat.not_le.mp few
  | some c =>
    obtain ⟨_, before, after, n, rfl, least, near, earlier, later⟩ := h
    refine ⟨trivial, before, after, n, rfl, least, near, fun d member _ m edits => ?_,
      fun d member _ m edits => ?_⟩
    · by_cases few : m ≤ maxDistance name
      · exact earlier d member (all d (List.mem_append_left _ member) m few edits) m edits
      · omega
    · by_cases few : m ≤ maxDistance name
      · have listed := List.mem_append_right before (List.mem_cons_of_mem c member)
        exact later d member (all d listed m few edits) m edits
      · omega

/-- What is suggested for a name is the closest of the candidates whose lengths in bytes differ from
the name's by the bound at most: the earliest of those that take the fewest edits, if they are no
more than the bound. It is the closest of all candidates if none is skipped that is within the
bound, and so in particular where every character is a byte. -/
theorem suggestion?_closest (name : String) (candidates : List String) :
    let found := closest? name candidates
    suggestion? name candidates = found.map (fun c => s!"did you mean `{c}`?") ∧
      IsClosest (AlikeInSize name) name candidates found ∧
      ((∀ c ∈ candidates, ∀ n ≤ maxDistance name, Edits n name.toList c.toList →
        AlikeInSize name c) → IsClosest (fun _ => True) name candidates found) ∧
      ((∀ text ∈ name :: candidates, text.utf8ByteSize = text.length) →
        IsClosest (fun _ => True) name candidates found) := by
  have start : Best name [] none := nofun
  have closest := (start.foldl candidates).isClosest
  refine ⟨rfl, closest, closest.of_all, fun single => ?_⟩
  obtain ⟨here, there⟩ := List.forall_mem_cons.mp single
  exact closest.of_all fun c member n few edits =>
    alikeInSize_of_edits here (there c member) edits few

/-- The emoji has four bytes, so the first candidate is skipped although one edit leads to it. The
other one takes three. -/
theorem suggestion?_passes_over :
    let candidates := ["abcdef😀", "abcxyz"]
    suggestion? "abcdef" candidates = some "did you mean `abcxyz`?" ∧
      Edits 1 "abcdef".toList "abcdef😀".toList ∧
      editDistance "abcdef".toList "abcxyz".toList = 3 ∧
      ¬IsClosest (fun _ => True) "abcdef" candidates (closest? "abcdef" candidates) := by
  intro candidates
  have single : Edits 1 "abcdef".toList "abcdef😀".toList :=
    .single (.insert "abcdef".toList [] '😀')
  have distance : editDistance "abcdef".toList "abcxyz".toList = 3 := by decide
  have found : closest? "abcdef" candidates = some "abcxyz" := by decide
  refine ⟨by decide, single, distance, fun closest => ?_⟩
  rw [found] at closest
  obtain ⟨_, before, after, n, split, least, _, earlier, later⟩ := closest
  obtain rfl : n = 3 := least.unique (distance ▸ leastEdits_editDistance _ _)
  have listed : "abcdef😀" ∈ candidates := List.mem_cons_self
  rw [split] at listed
  obtain first | listed := List.mem_append.mp listed
  · exact absurd (earlier _ first trivial 1 single) (by decide)
  · obtain same | last := List.mem_cons.mp listed
    · exact absurd same (by decide)
    · exact absurd (later _ last trivial 1 single) (by decide)

end PackedLayout
