/-!
# Arenas

Append-only storage addressed by index, so that an index once given out keeps its element.
-/

namespace PackedLayout

structure Idx where
  raw : Nat
deriving DecidableEq

/-- How an index into an arena of `elements` is shown. -/
def Idx.text (i : Idx) (elements : String) : String := s!"Idx::<{elements}>({i.raw})"

structure Arena (α : Type) where
  items : Array α := #[]

namespace Arena

variable {α : Type}

def empty : Arena α := {}

/-- The index the next `alloc` gives out. -/
def nextIdx (arena : Arena α) : Idx := ⟨arena.items.size⟩

def alloc (arena : Arena α) (x : α) : Idx × Arena α := (arena.nextIdx, ⟨arena.items.push x⟩)

def get? (arena : Arena α) (i : Idx) : Option α := arena.items[i.raw]?

def size (arena : Arena α) : Nat := arena.items.size

def isEmpty (arena : Arena α) : Bool := arena.items.isEmpty

/-- Every element with its index, oldest first. -/
def toList (arena : Arena α) : List (Idx × α) :=
  arena.items.toList.zipIdx.map fun (x, i) => (⟨i⟩, x)

def text (arena : Arena α) : String := s!"Arena \x7b len: {arena.size} \x7d"

theorem get?_alloc_same (arena : Arena α) (x : α) :
    (arena.alloc x).2.get? (arena.alloc x).1 = some x := by
  simp [alloc, get?, nextIdx]

theorem get?_alloc_of_lt (arena : Arena α) (x : α) {i : Idx} (h : i.raw < arena.size) :
    (arena.alloc x).2.get? i = arena.get? i := by
  have differ : i.raw ≠ arena.items.size := Nat.ne_of_lt h
  simp [alloc, get?, Array.getElem?_push, differ]

end Arena

end PackedLayout
