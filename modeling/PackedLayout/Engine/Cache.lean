import PackedLayout.Layout.Template

/-!
# The cache of an engine

The templates made so far, and the names of the structs that are being laid out. Both survive an
error: a struct that was finished before it stays cached, and a struct that was being laid out is
no longer.
-/

namespace PackedLayout

structure Cache where
  /-- One template for each struct, the latest first. -/
  templates : List Template := []
  /-- The structs being laid out, innermost first. -/
  underway : List String := []
deriving DecidableEq

namespace Cache

def empty : Cache := {}

def template? (cache : Cache) (name : String) : Option Template :=
  cache.templates.find? fun t => t.name == name

def insert (t : Template) (cache : Cache) : Cache :=
  { cache with templates := t :: cache.templates }

def enter (name : String) (cache : Cache) : Cache :=
  { cache with underway := name :: cache.underway }

def leave (cache : Cache) : Cache := { cache with underway := cache.underway.tail }

end Cache

/-- What runs in an engine: it may fail, and keeps its effect on the cache if it does. -/
abbrev EngineM := ExceptT LayoutError (StateM Cache)

/-- Runs `act` while the struct `name` is underway. -/
def whileUnderway {α : Type} (name : String) (act : EngineM α) : EngineM α := fun cache =>
  let (result, cache) := act (cache.enter name)
  (result, cache.leave)

end PackedLayout
