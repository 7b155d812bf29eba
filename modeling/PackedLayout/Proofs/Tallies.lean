import Mathlib.Data.List.Induction
import PackedLayout.Proofs.SubsetSums

/-!
# Counts after a sequence of calls

Bytes are recorded class by class, in any order, and a call is refused when the total would need
more than a word. Whatever was accepted and refused before, the counts tell exactly the bytes that
were accepted, so none of the unchecked sums ever wraps.

- `UnitCounts.record`: one call, as its caller sees it;
- `Tally`: the counts after some calls, and the calls that were accepted;
- `bytesWhere`: the bytes of some calls in some classes, exactly;
- `Tally.Told`: the counts and the accepted calls tell the same bytes in every class. Every call
  keeps it;
- `UnitCounts.Tells`: all that can be read off the counts, beside the bytes that were accepted;
- `record_exact`: so it is after every sequence of calls.
-/

namespace PackedLayout

namespace UnitCounts

/-- The counts after a call, and its answer. A call that is refused changes nothing. -/
def record (w : Width) (counts : UnitCounts) (a : Alignment) (n : Nat) : UnitCounts × Option Nat :=
  match counts.addBytes? w a n with
  | some (next, total) => (next, some total)
  | none => (counts, none)

end UnitCounts

/-- A sequence of calls under way: the counts, and the calls accepted so far. -/
structure Tally where
  counts : UnitCounts := .empty
  accepted : List (Alignment × Nat) := []

namespace Tally

def call (w : Width) (tally : Tally) (c : Alignment × Nat) : Tally :=
  match tally.counts.record w c.1 c.2 with
  | (counts, some _) => { counts, accepted := tally.accepted ++ [c] }
  | (counts, none) => { tally with counts }

/-- What a sequence of calls makes of empty counts. -/
def of (w : Width) (calls : List (Alignment × Nat)) : Tally := calls.foldl (call w) {}

end Tally

/-- The bytes of some calls in the classes that pass `p`, exactly. -/
def bytesWhere (p : Alignment → Prop) [DecidablePred p] (calls : List (Alignment × Nat)) : Nat :=
  exactSum ((calls.filter fun c => p c.1).map (·.2))

/-- All that can be read off counts, in the arithmetic `w`: exact numbers of the bytes that were
accepted, class by class and added up over any classes. -/
structure UnitCounts.Tells (w : Width) (counts : UnitCounts) (accepted : List (Alignment × Nat)) :
    Prop where
  get : ∀ a, counts.get a = bytesWhere (· = a) accepted / a.bytes
  bytes : ∀ a, counts.bytes w a = bytesWhere (· = a) accepted
  bytesOf : ∀ classes : List Alignment, classes.Nodup →
    counts.bytesOf w classes = bytesWhere (· ∈ classes) accepted
  total : counts.total w =
    exactSum (Alignment.descending.map fun a => bytesWhere (· = a) accepted / a.bytes)
  totalBytes : counts.totalBytes w = exactSum (accepted.map (·.2))
  bytesAtOrAbove : ∀ a, counts.bytesAtOrAbove w a = bytesWhere (a ≤ ·) accepted
  zoneStart : ∀ a, counts.zoneStart w a = bytesWhere (a < ·) accepted
  zoneEnd : ∀ a, counts.zoneStart w a + counts.bytes w a = counts.bytesAtOrAbove w a
  nextZone : ∀ a, counts.zoneStart w a = (a.larger?.map (counts.bytesAtOrAbove w)).getD 0
  aligned : ∀ a : Alignment, a.bytes ∣ counts.zoneStart w a

section Bytes

variable {p q r : Alignment → Prop} [DecidablePred p] [DecidablePred q] [DecidablePred r]

theorem bytesWhere_concat (calls : List (Alignment × Nat)) (c : Alignment × Nat) :
    bytesWhere p (calls ++ [c]) = bytesWhere p calls + if p c.1 then c.2 else 0 := by
  unfold bytesWhere
  rw [List.filter_append, List.map_append, exactSum_append]
  by_cases h : p c.1 <;> simp [h, Width.sum]

theorem bytesWhere_all (all : ∀ a, p a) (calls : List (Alignment × Nat)) :
    bytesWhere p calls = exactSum (calls.map (·.2)) := by
  rw [bytesWhere, List.filter_eq_self.mpr fun c _ => decide_eq_true (all c.1)]

theorem bytesWhere_le (calls : List (Alignment × Nat)) :
    bytesWhere p calls ≤ exactSum (calls.map (·.2)) :=
  exactSum_le_of_sublist (List.filter_sublist.map _)

/-- Bytes of classes that are apart add up. -/
theorem bytesWhere_add (apart : ∀ a, p a → ¬q a) (both : ∀ a, r a ↔ p a ∨ q a)
    (calls : List (Alignment × Nat)) :
    bytesWhere r calls = bytesWhere p calls + bytesWhere q calls := by
  induction calls using List.reverseRecOn with
  | nil => rfl
  | append_singleton calls c ih =>
    simp only [bytesWhere_concat, ih, both]
    by_cases first : p c.1
    · have second : ¬q c.1 := apart c.1 first
      simp only [first, second, true_or, if_true, if_false]
      omega
    · simp only [first, false_or, if_false]
      omega

theorem exactSum_map_bytesWhere {classes : List Alignment} (distinct : classes.Nodup)
    (calls : List (Alignment × Nat)) :
    exactSum (classes.map fun a => bytesWhere (· = a) calls) =
      bytesWhere (· ∈ classes) calls := by
  induction classes with
  | nil =>
    have none : (calls.filter fun c => c.1 ∈ []) = [] :=
      List.filter_eq_nil_iff.mpr fun c _ => by simp
    rw [bytesWhere, none]
    rfl
  | cons a classes ih =>
    obtain ⟨absent, distinct⟩ := List.nodup_cons.mp distinct
    rw [List.map_cons, exactSum_cons, ih distinct]
    refine (bytesWhere_add (fun b same => ?_) (fun b => List.mem_cons) calls).symm
    exact same ▸ absent

end Bytes

namespace UnitCounts

variable {w : Width} {counts : UnitCounts}

/-- A call is refused just if the exact total would not fit. -/
theorem Exact.addBytes?_eq_none (exact : counts.Exact w) {a : Alignment} {n : Nat} :
    counts.addBytes? w a n = none ↔ w.checked (counts.totalBytes .unbounded + n) = none := by
  rw [addBytes?, Option.map_eq_none_iff, exact.totalBytes]

theorem zoneStart_eq_larger (w : Width) (counts : UnitCounts) (a : Alignment) :
    counts.zoneStart w a = (a.larger?.map (counts.bytesAtOrAbove w)).getD 0 := by
  cases a with
  | eight => cases w <;> rfl
  | four | two | one => rfl

end UnitCounts

namespace Tally

variable {w : Width} {tally : Tally}

/-- The counts fit, and hold in every class the bytes that were accepted there. -/
structure Told (w : Width) (tally : Tally) : Prop where
  exact_ : tally.counts.Exact w
  bytes : ∀ a, tally.counts.bytes .unbounded a = bytesWhere (· = a) tally.accepted

theorem told_start (w : Width) : Told w {} where
  exact_ := UnitCounts.exact_empty w
  bytes := fun a => by cases a <;> rfl

theorem Told.call (told : tally.Told w) {c : Alignment × Nat} (whole : c.1.bytes ∣ c.2) :
    (tally.call w c).Told w := by
  unfold Tally.call UnitCounts.record
  cases added : tally.counts.addBytes? w c.1 c.2 with
  | none => exact told
  | some r =>
    obtain ⟨exact_, _, _, grown⟩ := UnitCounts.addBytes?_eq_some told.exact_ whole added
    refine ⟨exact_, fun a => ?_⟩
    rw [grown, told.bytes, bytesWhere_concat]

/-- After every sequence of calls the counts hold what was accepted. -/
theorem told_of (w : Width) {calls : List (Alignment × Nat)}
    (whole : ∀ c ∈ calls, c.1.bytes ∣ c.2) : (of w calls).Told w := by
  induction calls using List.reverseRecOn with
  | nil => exact told_start w
  | append_singleton calls c ih =>
    have last : of w (calls ++ [c]) = (of w calls).call w c := by
      rw [of, List.foldl_append]
      rfl
    rw [last]
    exact (ih fun c member => whole c (List.mem_append_left _ member)).call
      (whole c (List.mem_append_right _ (List.mem_singleton_self c)))

theorem Told.exactBytesOf (told : tally.Told w) {classes : List Alignment}
    (distinct : classes.Nodup) :
    tally.counts.bytesOf .unbounded classes = bytesWhere (· ∈ classes) tally.accepted := by
  have each : classes.map (tally.counts.bytes .unbounded) =
      classes.map fun a => bytesWhere (· = a) tally.accepted :=
    List.map_congr_left fun a _ => told.bytes a
  rw [UnitCounts.bytesOf, each]
  exact exactSum_map_bytesWhere distinct _

theorem Told.totalBytes (told : tally.Told w) :
    tally.counts.totalBytes .unbounded = exactSum (tally.accepted.map (·.2)) :=
  (told.exactBytesOf (by decide)).trans (bytesWhere_all Alignment.mem_descending _)

/-- Sums over different classes are exact, because none is above the total. -/
theorem Told.bytesOf (told : tally.Told w) {classes : List Alignment} (distinct : classes.Nodup) :
    tally.counts.bytesOf w classes = bytesWhere (· ∈ classes) tally.accepted := by
  have sum := told.exactBytesOf distinct
  rw [← sum]
  apply told.exact_.bytesOf
  rw [sum, told.totalBytes]
  exact bytesWhere_le _

/-- The sums start at the largest class and end where the next one does not pass. -/
theorem Told.bytesOf_takeWhile (told : tally.Told w) {p : Alignment → Prop} [DecidablePred p]
    (listed : ∀ a, a ∈ Alignment.descending.takeWhile p ↔ p a) :
    tally.counts.bytesOf w (Alignment.descending.takeWhile p) = bytesWhere p tally.accepted := by
  have distinct : Alignment.descending.Nodup := by decide
  rw [told.bytesOf (distinct.sublist (List.takeWhile_sublist _))]
  simp only [bytesWhere, listed]

theorem Told.get (told : tally.Told w) (a : Alignment) :
    tally.counts.get a = bytesWhere (· = a) tally.accepted / a.bytes := by
  rw [← told.bytes, UnitCounts.bytes_unbounded, Nat.mul_div_cancel _ a.bytes_pos]

/-- No class has more units than bytes, so their number fits too. -/
theorem Told.total (told : tally.Told w) :
    tally.counts.total w = exactSum (Alignment.descending.map tally.counts.get) := by
  have le := tally.counts.get_le_bytes
  have fewer : exactSum (Alignment.descending.map tally.counts.get) ≤
      tally.counts.totalBytes .unbounded :=
    Nat.add_le_add (le _) (Nat.add_le_add (le _) (Nat.add_le_add (le _)
      (Nat.add_le_add (le _) (Nat.le_refl 0))))
  exact (told.exact_.mono fewer).wrap

theorem Told.tells (told : tally.Told w) : tally.counts.Tells w tally.accepted := by
  have bytes (a : Alignment) : tally.counts.bytes w a = bytesWhere (· = a) tally.accepted :=
    (told.exact_.bytes a).trans (told.bytes a)
  have atOrAbove (a : Alignment) :
      tally.counts.bytesAtOrAbove w a = bytesWhere (a ≤ ·) tally.accepted :=
    told.bytesOf_takeWhile fun b => by cases a <;> cases b <;> decide
  have above (a : Alignment) : tally.counts.zoneStart w a = bytesWhere (a < ·) tally.accepted :=
    told.bytesOf_takeWhile fun b => by cases a <;> cases b <;> decide
  exact {
    get := told.get
    bytes
    bytesOf := fun _ => told.bytesOf
    total := by
      rw [told.total]
      exact congrArg exactSum (List.map_congr_left fun a _ => told.get a)
    totalBytes := told.exact_.totalBytes.trans told.totalBytes
    bytesAtOrAbove := atOrAbove
    zoneStart := above
    zoneEnd := fun a => by
      rw [above, bytes, atOrAbove]
      refine (bytesWhere_add (fun b => ?_) (fun b => ?_) _).symm
      · rintro larger rfl
        exact Nat.lt_irrefl _ larger
      · cases a <;> cases b <;> decide
    nextZone := UnitCounts.zoneStart_eq_larger w tally.counts
    aligned := fun a => by
      rw [told.exact_.zoneStart]
      exact tally.counts.bytes_dvd_zoneStart a }

/-- One more call is refused just if the bytes accepted so far and its own need more than a word.
Refused, it leaves the counts as they are; otherwise it answers that sum. -/
theorem Told.record (told : tally.Told .bits64) {a : Alignment} {n : Nat} (whole : a.bytes ∣ n) :
    let sum := exactSum (tally.accepted.map (·.2)) + n
    ((tally.counts.record .bits64 a n).2 = none ↔ Width.words - 1 < sum) ∧
      ((tally.counts.record .bits64 a n).2 = none →
        (tally.counts.record .bits64 a n).1 = tally.counts) ∧
      ∀ total, (tally.counts.record .bits64 a n).2 = some total → total = sum := by
  dsimp only
  unfold UnitCounts.record
  rw [← told.totalBytes]
  cases added : tally.counts.addBytes? .bits64 a n with
  | none =>
    rw [told.exact_.addBytes?_eq_none, Width.checked_bits64_eq_none] at added
    have pos : 0 < Width.words := by decide
    refine ⟨⟨fun _ => by omega, fun _ => rfl⟩, fun _ => rfl, fun total answered => ?_⟩
    contradiction
  | some r =>
    obtain ⟨next, total⟩ := r
    obtain ⟨fits, sum, rfl, _⟩ := UnitCounts.addBytes?_eq_some told.exact_ whole added
    have below : next.totalBytes .unbounded < Width.words := Width.fits_bits64.mp fits
    refine ⟨⟨fun refused => ?_, fun above => by omega⟩, fun refused => ?_,
      fun total answered => (Option.some.inj answered).symm⟩
    · contradiction
    · contradiction

/-- After every sequence of calls with whole units the next one is refused just if the bytes
accepted so far and its own need more than a word. Refused, it leaves the counts as they are;
otherwise it answers that sum. What is read off the counts on the way never wraps. -/
theorem record_exact (calls : List (Alignment × Nat)) (whole : ∀ c ∈ calls, c.1.bytes ∣ c.2) :
    (∀ (a : Alignment) (n : Nat), a.bytes ∣ n →
      let counts := (of .bits64 calls).counts
      let sum := exactSum ((of .bits64 calls).accepted.map (·.2)) + n
      ((counts.record .bits64 a n).2 = none ↔ Width.words - 1 < sum) ∧
      ((counts.record .bits64 a n).2 = none → (counts.record .bits64 a n).1 = counts) ∧
      ∀ total, (counts.record .bits64 a n).2 = some total → total = sum) ∧
    (of .bits64 calls).counts.Tells .bits64 (of .bits64 calls).accepted :=
  have told := told_of .bits64 whole
  ⟨fun _ _ whole => told.record whole, told.tells⟩

/-- Half a word of single bytes leaves no room for half a word of 8-byte units, but for three 2-byte
units: they come before the single bytes, and the next 8 bytes are accepted. -/
theorem record_exact_half_full :
    (∀ c ∈ [(Alignment.one, 0x8000000000000000), (.eight, 0x8000000000000000), (.two, 6)],
      c.1.bytes ∣ c.2) ∧
    let counts := (of .bits64
      [(.one, 0x8000000000000000), (.eight, 0x8000000000000000), (.two, 6)]).counts
    counts.zoneStart .bits64 .one = 6 ∧ counts.bytes .bits64 .eight = 0 ∧
      (counts.record .bits64 .eight 0x8000000000000000).2 = none ∧
      (counts.record .bits64 .eight 8).2 ≠ none := by
  have whole : ∀ c ∈ [(Alignment.one, 0x8000000000000000), (.eight, 0x8000000000000000), (.two, 6)],
    c.1.bytes ∣ c.2 := by decide
  obtain ⟨next, tells⟩ := record_exact _ whole
  refine ⟨whole, (tells.zoneStart .one).trans (by decide), (tells.bytes .eight).trans (by decide),
    (next .eight _ (by decide)).1.mpr (by decide), fun refused => ?_⟩
  exact absurd ((next .eight 8 (by decide)).1.mp refused) (by decide)

end Tally

end PackedLayout
