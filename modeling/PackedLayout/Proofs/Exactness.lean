import PackedLayout.Layout.Template

/-!
# Where nothing wraps

A number fits an arithmetic when a checked operation accepts it, and then an unchecked operation
leaves it alone too. Rounding and the counts of leaves are exact as long as their results fit:

- `roundUp?_spec`, `roundUp?_of_dvd`: what rounding up gives, and that a multiple rounds to itself;
- `addBytes?_eq_some`: adding whole units to exact counts adds their bytes and keeps them exact;
- `footprint?_spec`: a footprint counts the sizes of its zones, and puts every zone after the
  larger ones.
-/

namespace PackedLayout

namespace Width

variable {w : Width} {n m : Nat}

/-- A checked operation accepts the result `n`. -/
def Fits (w : Width) (n : Nat) : Prop := w.checked n = some n

theorem fits_unbounded (n : Nat) : unbounded.Fits n := rfl

theorem fits_bits64 : bits64.Fits n ↔ n < words := by
  unfold Fits checked
  split <;> simp_all

theorem fits_zero (w : Width) : w.Fits 0 := checked_of_lt (by decide)

theorem Fits.mono (h : w.Fits n) (le : m ≤ n) : w.Fits m := by
  cases w with
  | bits64 => exact fits_bits64.mpr (Nat.lt_of_le_of_lt le (fits_bits64.mp h))
  | unbounded => exact fits_unbounded m

theorem Fits.wrap (h : w.Fits n) : w.wrap n = n := by
  cases w with
  | bits64 => exact wrap_of_lt (fits_bits64.mp h)
  | unbounded => rfl

theorem checked_eq_some : w.checked n = some m ↔ w.Fits n ∧ m = n := by
  constructor
  · intro h
    have same := eq_of_checked h
    exact ⟨same ▸ h, same⟩
  · rintro ⟨h, rfl⟩
    exact h

theorem checked_eq_none : w.checked n = none ↔ ¬w.Fits n := by
  rw [Option.eq_none_iff_forall_ne_some]
  exact ⟨fun h fits => h n (checked_eq_some.mpr ⟨fits, rfl⟩),
    fun h _ checked => h (checked_eq_some.mp checked).1⟩

theorem sum?_eq_some {ns : List Nat} :
    w.sum? ns = some m ↔ w.Fits (unbounded.sum ns) ∧ m = unbounded.sum ns := checked_eq_some

end Width

namespace Alignment

theorem bytes_dvd_of_le {a b : Alignment} (h : a ≤ b) : a.bytes ∣ b.bytes := by
  cases a <;> cases b <;> revert h <;> decide

theorem bytes_dvd_words (a : Alignment) : a.bytes ∣ Width.words := by cases a <;> decide

theorem le_refl (a : Alignment) : a ≤ a := Nat.le_refl a.bytes

theorem le_of_lt {a b : Alignment} (h : a < b) : a ≤ b := Nat.le_of_lt h

theorem not_le_of_lt {a b : Alignment} (h : b < a) : ¬a ≤ b := Nat.not_le.mpr h

/-- The classes from one on are those up to it. -/
theorem mem_iff_le_of_order {zone : Alignment} {done rest : List Alignment}
    (order : done ++ zone :: rest = descending) {a : Alignment} : a ∈ zone :: rest ↔ a ≤ zone := by
  have all : descending.Pairwise fun a b => b < a := by decide
  have listed := a.mem_descending
  rw [← order] at all listed
  constructor
  · intro member
    obtain rfl | later := List.mem_cons.mp member
    · exact a.le_refl
    · exact le_of_lt ((List.pairwise_cons.mp (List.pairwise_append.mp all).2.1).1 a later)
  · intro le
    obtain earlier | still := List.mem_append.mp listed
    · have larger := (List.pairwise_append.mp all).2.2 a earlier zone List.mem_cons_self
      exact absurd larger (Nat.not_lt.mpr le)
    · exact still

theorem bytes_injective {a b : Alignment} (h : a.bytes = b.bytes) : a = b := by
  cases a <;> cases b <;> revert h <;> decide

theorem roundUp?_spec {w : Width} {a : Alignment} {n m : Nat} (h : a.roundUp? w n = some m) :
    n ≤ m ∧ a.bytes ∣ m ∧ w.Fits m ∧ ∀ k, n ≤ k → a.bytes ∣ k → m ≤ k := by
  obtain ⟨r, hr, rfl⟩ := Option.map_eq_some_iff.mp h
  obtain ⟨fits, rfl⟩ := Width.checked_eq_some.mp hr
  have pos := a.bytes_pos
  have down : (n + (a.bytes - 1)) / a.bytes * a.bytes ≤ n + (a.bytes - 1) :=
    Nat.div_mul_le_self _ _
  have near := Nat.lt_div_mul_add (a := n + (a.bytes - 1)) pos
  refine ⟨by omega, Nat.dvd_mul_left _ _, fits.mono down, ?_⟩
  rintro k hk ⟨c, rfl⟩
  have bound : (n + (a.bytes - 1)) / a.bytes < c + 1 := by
    rw [Nat.div_lt_iff_lt_mul pos, Nat.add_mul, Nat.mul_comm c]
    omega
  rw [Nat.mul_comm a.bytes c]
  exact Nat.mul_le_mul_right a.bytes (Nat.le_of_lt_succ bound)

/-- A multiple rounds up to itself, even next to the largest word. -/
theorem roundUp?_of_dvd {w : Width} {a : Alignment} {n : Nat} (fits : w.Fits n)
    (whole : a.bytes ∣ n) : a.roundUp? w n = some n := by
  have pos := a.bytes_pos
  have accepted : w.Fits (n + (a.bytes - 1)) := by
    cases w with
    | unbounded => exact Width.fits_unbounded _
    | bits64 =>
      obtain ⟨c, rfl⟩ := whole
      obtain ⟨d, hd⟩ := a.bytes_dvd_words
      have below := Width.fits_bits64.mp fits
      rw [hd] at below
      have step : c + 1 ≤ d := Nat.lt_of_mul_lt_mul_left below
      have room := Nat.mul_le_mul_left a.bytes step
      rw [Nat.mul_add, Nat.mul_one] at room
      rw [Width.fits_bits64, hd]
      omega
  unfold roundUp?
  rw [Width.checked_eq_some.mpr ⟨accepted, rfl⟩, Option.map_some]
  obtain ⟨c, rfl⟩ := whole
  rw [Nat.mul_add_div pos, Nat.div_eq_of_lt (by omega), Nat.add_zero, Nat.mul_comm]

end Alignment

namespace UnitCounts

variable {w : Width} {counts : UnitCounts}

/-- The bytes of all units fit. -/
def Exact (w : Width) (counts : UnitCounts) : Prop := w.Fits (counts.totalBytes .unbounded)

theorem bytes_unbounded (counts : UnitCounts) (a : Alignment) :
    counts.bytes .unbounded a = counts.get a * a.bytes := rfl

theorem totalBytes_unbounded (counts : UnitCounts) :
    counts.totalBytes .unbounded = counts.bytes .unbounded .eight +
      (counts.bytes .unbounded .four + (counts.bytes .unbounded .two +
        (counts.bytes .unbounded .one + 0))) := rfl

theorem bytes_le_totalBytes (counts : UnitCounts) (a : Alignment) :
    counts.bytes .unbounded a ≤ counts.totalBytes .unbounded := by
  rw [totalBytes_unbounded]
  cases a <;> omega

theorem get_le_bytes (counts : UnitCounts) (a : Alignment) :
    counts.get a ≤ counts.bytes .unbounded a := Nat.le_mul_of_pos_right _ a.bytes_pos

theorem exact_empty (w : Width) : empty.Exact w := Width.fits_zero w

theorem Exact.bytes (exact : counts.Exact w) (a : Alignment) :
    counts.bytes w a = counts.bytes .unbounded a :=
  (Width.Fits.mono exact (bytes_le_totalBytes counts a)).wrap

theorem Exact.bytesOf (exact : counts.Exact w) {classes : List Alignment}
    (within : counts.bytesOf .unbounded classes ≤ counts.totalBytes .unbounded) :
    counts.bytesOf w classes = counts.bytesOf .unbounded classes := by
  have each : classes.map (counts.bytes w) = classes.map (counts.bytes .unbounded) :=
    List.map_congr_left fun a _ => exact.bytes a
  unfold UnitCounts.bytesOf Width.sum
  rw [each]
  exact (Width.Fits.mono exact within).wrap

theorem Exact.totalBytes (exact : counts.Exact w) :
    counts.totalBytes w = counts.totalBytes .unbounded := exact.bytesOf (Nat.le_refl _)

theorem zoneStart_add_bytes_le (counts : UnitCounts) (a : Alignment) :
    counts.zoneStart .unbounded a + counts.bytes .unbounded a ≤
      counts.totalBytes .unbounded := by
  rw [totalBytes_unbounded]
  cases a
  · show 0 + _ ≤ _
    omega
  · show counts.bytes .unbounded .eight + 0 + _ ≤ _
    omega
  · show counts.bytes .unbounded .eight + (counts.bytes .unbounded .four + 0) + _ ≤ _
    omega
  · show counts.bytes .unbounded .eight + (counts.bytes .unbounded .four +
      (counts.bytes .unbounded .two + 0)) + _ ≤ _
    omega

theorem Exact.zoneStart (exact : counts.Exact w) (a : Alignment) :
    counts.zoneStart w a = counts.zoneStart .unbounded a :=
  exact.bytesOf (Nat.le_trans (Nat.le_add_right _ _) (zoneStart_add_bytes_le counts a))

theorem zoneStart_add_bytes_le_zoneStart (counts : UnitCounts) {a b : Alignment} (h : b < a) :
    counts.zoneStart .unbounded a + counts.bytes .unbounded a ≤ counts.zoneStart .unbounded b := by
  have eight : counts.zoneStart .unbounded .eight = 0 := rfl
  have four : counts.zoneStart .unbounded .four = counts.bytes .unbounded .eight + 0 := rfl
  have two : counts.zoneStart .unbounded .two =
    counts.bytes .unbounded .eight + (counts.bytes .unbounded .four + 0) := rfl
  have one : counts.zoneStart .unbounded .one =
    counts.bytes .unbounded .eight + (counts.bytes .unbounded .four +
      (counts.bytes .unbounded .two + 0)) := rfl
  cases a <;> cases b <;> first | omega | exact absurd h (by decide)

theorem bytes_dvd_zoneStart (counts : UnitCounts) (a : Alignment) :
    a.bytes ∣ counts.zoneStart .unbounded a := by
  have whole (b : Alignment) (h : a ≤ b) : a.bytes ∣ counts.bytes .unbounded b :=
    Nat.dvd_trans (Alignment.bytes_dvd_of_le h) (Nat.dvd_mul_left _ _)
  cases a with
  | eight => exact Nat.dvd_zero _
  | four => exact Nat.dvd_add (whole .eight (by decide)) (Nat.dvd_zero _)
  | two =>
    exact Nat.dvd_add (whole .eight (by decide))
      (Nat.dvd_add (whole .four (by decide)) (Nat.dvd_zero _))
  | one => exact Nat.one_dvd _

theorem bytes_modify (counts : UnitCounts) {a : Alignment} {n : Nat} (whole : a.bytes ∣ n)
    (b : Alignment) :
    bytes .unbounded { counts with units := counts.units.modify a (· + n / a.bytes) } b =
      counts.bytes .unbounded b + if a = b then n else 0 := by
  simp only [bytes_unbounded, get, PerClass.get_modify]
  split
  · rename_i same
    subst same
    rw [Nat.add_mul, Nat.div_mul_cancel whole]
  · rfl

theorem totalBytes_modify (counts : UnitCounts) {a : Alignment} {n : Nat} (whole : a.bytes ∣ n) :
    totalBytes .unbounded { counts with units := counts.units.modify a (· + n / a.bytes) } =
      counts.totalBytes .unbounded + n := by
  simp only [totalBytes_unbounded, bytes_modify counts whole]
  cases a <;> simp <;> omega

/-- Adding whole units to exact counts adds their bytes, and the new counts are exact. -/
theorem addBytes?_eq_some (exact : counts.Exact w) {a : Alignment} {n total : Nat}
    (whole : a.bytes ∣ n) {next : UnitCounts} (h : counts.addBytes? w a n = some (next, total)) :
    next.Exact w ∧ total = next.totalBytes .unbounded ∧
      total = counts.totalBytes .unbounded + n ∧
      ∀ b, next.bytes .unbounded b = counts.bytes .unbounded b + if a = b then n else 0 := by
  obtain ⟨sum, hsum, hnext⟩ := Option.map_eq_some_iff.mp h
  obtain ⟨fits, rfl⟩ := Width.checked_eq_some.mp hsum
  rw [exact.totalBytes] at fits hnext
  have small : counts.get a + n / a.bytes ≤ counts.totalBytes .unbounded + n :=
    Nat.add_le_add (Nat.le_trans (get_le_bytes counts a) (bytes_le_totalBytes counts a))
      (Nat.div_le_self n a.bytes)
  have unwrapped : counts.units.modify a (fun k => w.wrap (k + n / a.bytes)) =
      counts.units.modify a (· + n / a.bytes) := by
    have wrap := (fits.mono small).wrap
    cases a <;> simpa [PerClass.modify, get, PerClass.get] using wrap
  rw [unwrapped] at hnext
  obtain ⟨rfl, rfl⟩ := Prod.mk.injEq _ _ _ _ ▸ hnext
  have grown := totalBytes_modify counts whole
  refine ⟨?_, grown.symm, rfl, bytes_modify counts whole⟩
  unfold Exact
  rw [grown]
  exact fits

end UnitCounts

/-- Counting some zones adds their sizes to the counts of their classes. -/
theorem foldlM_addBytes?_spec {w : Width} (size : Alignment → Nat) {classes : List Alignment}
    (distinct : classes.Nodup) (whole : ∀ a, a.bytes ∣ size a) {counts last : UnitCounts}
    (exact : counts.Exact w)
    (h : classes.foldlM (fun counts a => (counts.addBytes? w a (size a)).map (·.1)) counts =
      some last) :
    last.Exact w ∧ ∀ b, last.bytes .unbounded b =
      counts.bytes .unbounded b + if b ∈ classes then size b else 0 := by
  induction classes generalizing counts with
  | nil =>
    cases h
    exact ⟨exact, fun b => by simp⟩
  | cons a rest ih =>
    obtain ⟨fresh, distinct⟩ := List.nodup_cons.mp distinct
    rw [List.foldlM_cons] at h
    obtain ⟨next, hnext, h⟩ := Option.bind_eq_some_iff.mp h
    obtain ⟨⟨_, total⟩, hadd, rfl⟩ := Option.map_eq_some_iff.mp hnext
    obtain ⟨exact, _, _, bytes⟩ := UnitCounts.addBytes?_eq_some exact (whole a) hadd
    obtain ⟨exact, sizes⟩ := ih distinct exact h
    refine ⟨exact, fun b => ?_⟩
    rw [sizes b, bytes b]
    by_cases same : a = b
    · subst same
      simp [fresh]
    · simp [same, Ne.symm same]

/-- A footprint is exact, and counts every zone at its size. -/
theorem footprint?_spec {w : Width} {zones : PerClass Zone} {counts : UnitCounts}
    (whole : ∀ a, a.bytes ∣ (zones.get a).size) (h : footprint? w zones = some counts) :
    counts.Exact w ∧ ∀ a, counts.bytes .unbounded a = (zones.get a).size := by
  obtain ⟨exact, sizes⟩ := foldlM_addBytes?_spec (fun a => (zones.get a).size)
    (by decide) whole (UnitCounts.exact_empty w) h
  refine ⟨exact, fun a => ?_⟩
  have none : UnitCounts.empty.bytes .unbounded a = 0 := by cases a <;> rfl
  rw [sizes a, none, if_pos a.mem_descending, Nat.zero_add]

end PackedLayout
