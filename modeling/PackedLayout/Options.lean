/-!
# Layout options
-/

namespace PackedLayout

structure Options where
  /-- Reject a variant that would only get a warning. -/
  requirePerfect : Bool := false
  /-- The largest arm, in bytes, that boundaries are searched for. -/
  maxSearchBytes : Nat := 4 * 1024 * 1024
deriving DecidableEq

namespace Options

def default : Options := {}

def strict : Options := { requirePerfect := true }

end Options

end PackedLayout
