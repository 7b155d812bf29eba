import PackedLayout.Alignment

/-!
# Counts of leaves by class

How many class-sized units a shape holds in each alignment class: a string of 5 bytes is 5 units
of the 1-byte class, a 64-bit integer is one unit of the 8-byte class. Only `addBytes?` is checked;
the sums are taken in the arithmetic `w` without a check, because every count went through it.
-/

namespace PackedLayout

structure UnitCounts where
  units : PerClass Nat := .fill 0
deriving DecidableEq

namespace UnitCounts

def empty : UnitCounts := {}

def get (counts : UnitCounts) (a : Alignment) : Nat := counts.units.get a

/-- Bytes held by the units of one class. -/
def bytes (w : Width) (counts : UnitCounts) (a : Alignment) : Nat :=
  w.wrap (counts.get a * a.bytes)

/-- Bytes held by the units of some classes. -/
def bytesOf (w : Width) (counts : UnitCounts) (classes : List Alignment) : Nat :=
  w.sum (classes.map (counts.bytes w))

def total (w : Width) (counts : UnitCounts) : Nat :=
  w.sum counts.units.toList

def totalBytes (w : Width) (counts : UnitCounts) : Nat :=
  counts.bytesOf w Alignment.descending

def bytesAtOrAbove (w : Width) (counts : UnitCounts) (a : Alignment) : Nat :=
  counts.bytesOf w (Alignment.descending.takeWhile (a ≤ ·))

/-- Where the zone of a class starts when zones are laid out largest class first. -/
def zoneStart (w : Width) (counts : UnitCounts) (a : Alignment) : Nat :=
  counts.bytesOf w (Alignment.descending.takeWhile (a < ·))

/-- Adds `n` bytes, a whole number of units, and gives the new byte total beside the new counts.
Refused when that total needs more than a word. -/
def addBytes? (w : Width) (counts : UnitCounts) (a : Alignment) (n : Nat) :
    Option (UnitCounts × Nat) :=
  (w.checked (counts.totalBytes w + n)).map fun total =>
    ({ counts with units := counts.units.modify a fun k => w.wrap (k + n / a.bytes) }, total)

def largest? (counts : UnitCounts) : Option Alignment :=
  Alignment.descending.find? fun a => 0 < counts.get a

def isEmpty (w : Width) (counts : UnitCounts) : Bool := counts.total w == 0

end UnitCounts

end PackedLayout
