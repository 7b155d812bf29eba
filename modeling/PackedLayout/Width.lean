/-!
# Arithmetic widths

Sizes and offsets are natural numbers. A layout is computed in one of two arithmetics:

- `Width.bits64`, where a checked result above the largest word is refused and an unchecked
  one wraps around;
- `Width.unbounded`, where every result is exact.
-/

namespace PackedLayout

inductive Width where
  | bits64
  | unbounded
deriving DecidableEq

namespace Width

/-- One more than the largest 64-bit word. -/
def words : Nat := 0x10000000000000000

/-- The result of an unchecked operation whose exact value is `n`. -/
def wrap : Width → Nat → Nat
  | bits64, n => n % words
  | unbounded, n => n

/-- The result of a checked operation whose exact value is `n`. -/
def checked : Width → Nat → Option Nat
  | bits64, n => if n < words then some n else none
  | unbounded, n => some n

/-- The unchecked sum of some numbers. -/
def sum (w : Width) (ns : List Nat) : Nat := w.wrap (ns.foldr (· + ·) 0)

/-- The checked sum of some numbers. -/
def sum? (w : Width) (ns : List Nat) : Option Nat := w.checked (ns.foldr (· + ·) 0)

@[simp] theorem wrap_unbounded (n : Nat) : unbounded.wrap n = n := rfl

@[simp] theorem checked_unbounded (n : Nat) : unbounded.checked n = some n := rfl

theorem wrap_of_lt {w : Width} {n : Nat} (h : n < words) : w.wrap n = n := by
  cases w with
  | bits64 => exact Nat.mod_eq_of_lt h
  | unbounded => rfl

theorem checked_of_lt {w : Width} {n : Nat} (h : n < words) : w.checked n = some n := by
  cases w <;> simp [checked, h]

theorem eq_of_checked {w : Width} {n m : Nat} (h : w.checked n = some m) : m = n := by
  cases w with
  | bits64 =>
    simp only [checked] at h
    split at h
    · exact (Option.some.inj h).symm
    · contradiction
  | unbounded => exact (Option.some.inj h).symm

theorem checked_bits64_eq_none {n : Nat} : bits64.checked n = none ↔ words ≤ n := by
  simp [checked]

end Width

end PackedLayout
