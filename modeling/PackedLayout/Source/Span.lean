/-!
# Spans

A byte range of the schema text. The empty range at 0 stands for "no place in the text".
-/

namespace PackedLayout

structure Span where
  start : Nat
  stop : Nat
deriving DecidableEq

namespace Span

def dummy : Span := ⟨0, 0⟩

/-- A span whose end lies before its start has length 0. -/
def length (s : Span) : Nat := s.stop - s.start

def isEmpty (s : Span) : Bool := s.length == 0

end Span

end PackedLayout
