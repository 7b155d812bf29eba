import PackedLayout.Width

/-!
# Alignment classes

The natural alignment of a field is 8, 4, 2 or 1 bytes. Zones are laid out largest class first,
so no padding is needed between them. `PerClass` holds one value for each class.
-/

namespace PackedLayout

inductive Alignment where
  | eight
  | four
  | two
  | one
deriving DecidableEq

namespace Alignment

def bytes : Alignment → Nat
  | eight => 8
  | four => 4
  | two => 2
  | one => 1

/-- Largest first: the order in which zones follow one another. -/
def descending : List Alignment := [eight, four, two, one]

/-- Position in `descending`. -/
def index : Alignment → Nat
  | eight => 0
  | four => 1
  | two => 2
  | one => 3

instance : LT Alignment := ⟨fun a b => a.bytes < b.bytes⟩

instance : LE Alignment := ⟨fun a b => a.bytes ≤ b.bytes⟩

instance (a b : Alignment) : Decidable (a < b) := inferInstanceAs (Decidable (a.bytes < b.bytes))

instance (a b : Alignment) : Decidable (a ≤ b) := inferInstanceAs (Decidable (a.bytes ≤ b.bytes))

/-- The largest class whose size divides `size`. -/
def ofSize (size : Nat) : Alignment :=
  (descending.find? fun a => size % a.bytes == 0).getD one

/-- The next larger class. -/
def larger? : Alignment → Option Alignment
  | eight => none
  | four => some eight
  | two => some four
  | one => some two

/-- The least multiple of the class from `n` on, unless it needs more than a word. -/
def roundUp? (w : Width) (a : Alignment) (n : Nat) : Option Nat :=
  (w.checked (n + (a.bytes - 1))).map fun m => m / a.bytes * a.bytes

/-- The greatest multiple of the class up to `n`. -/
def roundDown (a : Alignment) (n : Nat) : Nat := n / a.bytes * a.bytes

def isAligned (a : Alignment) (n : Nat) : Bool := n % a.bytes == 0

/-- How messages name the class. -/
def text (a : Alignment) : String := s!"{a.bytes}-byte"

theorem lt_iff {a b : Alignment} : a < b ↔ a.bytes < b.bytes := Iff.rfl

theorem le_iff {a b : Alignment} : a ≤ b ↔ a.bytes ≤ b.bytes := Iff.rfl

theorem bytes_pos (a : Alignment) : 0 < a.bytes := by cases a <;> decide

theorem mem_descending (a : Alignment) : a ∈ descending := by cases a <;> decide

theorem bytes_ofSize_dvd (n : Nat) : (ofSize n).bytes ∣ n := by
  unfold ofSize
  cases h : descending.find? fun a => n % a.bytes == 0 with
  | none => exact Nat.one_dvd n
  | some a => exact Nat.dvd_of_mod_eq_zero (by simpa using List.find?_some h)

theorem roundDown_le (a : Alignment) (n : Nat) : a.roundDown n ≤ n := Nat.div_mul_le_self n a.bytes

theorem isAligned_iff {a : Alignment} {n : Nat} : a.isAligned n = true ↔ a.bytes ∣ n := by
  simp [isAligned, Nat.dvd_iff_mod_eq_zero]

end Alignment

/-- One value for each alignment class. -/
structure PerClass (α : Type) where
  eight : α
  four : α
  two : α
  one : α
deriving DecidableEq

namespace PerClass

variable {α β : Type}

def fill (x : α) : PerClass α := ⟨x, x, x, x⟩

def ofFn (f : Alignment → α) : PerClass α := ⟨f .eight, f .four, f .two, f .one⟩

def get (p : PerClass α) : Alignment → α
  | .eight => p.eight
  | .four => p.four
  | .two => p.two
  | .one => p.one

def modify (p : PerClass α) (a : Alignment) (f : α → α) : PerClass α :=
  match a, p with
  | .eight, ⟨x, y, z, u⟩ => ⟨f x, y, z, u⟩
  | .four, ⟨x, y, z, u⟩ => ⟨x, f y, z, u⟩
  | .two, ⟨x, y, z, u⟩ => ⟨x, y, f z, u⟩
  | .one, ⟨x, y, z, u⟩ => ⟨x, y, z, f u⟩

def set (p : PerClass α) (a : Alignment) (x : α) : PerClass α := p.modify a fun _ => x

def map (f : α → β) (p : PerClass α) : PerClass β := ⟨f p.eight, f p.four, f p.two, f p.one⟩

/-- Largest class first. -/
def toList (p : PerClass α) : List α := [p.eight, p.four, p.two, p.one]

@[simp] theorem get_fill (x : α) (a : Alignment) : (fill x).get a = x := by cases a <;> rfl

@[simp] theorem get_ofFn (f : Alignment → α) (a : Alignment) : (ofFn f).get a = f a := by
  cases a <;> rfl

theorem get_modify (p : PerClass α) (a b : Alignment) (f : α → α) :
    (p.modify a f).get b = if a = b then f (p.get b) else p.get b := by
  cases a <;> cases b <;> rfl

theorem get_set (p : PerClass α) (a b : Alignment) (x : α) :
    (p.set a x).get b = if a = b then x else p.get b := by
  cases a <;> cases b <;> rfl

@[simp] theorem get_map (f : α → β) (p : PerClass α) (a : Alignment) :
    (p.map f).get a = f (p.get a) := by cases a <;> rfl

theorem toList_eq_map_get (p : PerClass α) : p.toList = Alignment.descending.map p.get := rfl

end PerClass

end PackedLayout
