import PackedLayout.Alignment
import PackedLayout.Schema.Primitive
import PackedLayout.Source.Span

/-!
# Errors and warnings

A layout stops at its first error, which names a cause and the place of the schema it arose at.
A warning marks a variant that was laid out correctly but not without waste. Every cause has one
message.
-/

namespace PackedLayout

/-- Why the storage of a variant is not free of waste. -/
inductive Degradation where
  /-- No end of the zone can be filled exactly by every arm that reaches it; the least safe end
  was taken. -/
  | noPerfectBoundary (zone : Alignment) (boundary : Nat)
  /-- The largest arm is above the limit of the search. -/
  | searchSkipped (required limit : Nat)
  /-- The storage is larger than the largest arm. -/
  | padded (wasted : Nat)
deriving DecidableEq

def Degradation.message : Degradation → String
  | noPerfectBoundary zone boundary =>
    s!"no zero-waste {zone.text} boundary; fell back to offset {boundary}"
  | searchSkipped required limit =>
    s!"arm needs {required} bytes, above the search limit of {limit}"
  | padded wasted => s!"{wasted} byte(s) of padding"

structure Warning where
  degradation : Degradation
  span : Span
deriving DecidableEq

def Warning.message (warning : Warning) : String :=
  s!"degraded variant layout: {warning.degradation.message}"

/-- A broken invariant of the layout itself. -/
inductive Fault where
  | slotWrittenTwice (slot : Nat)
  | slotNeverWritten (slot : Nat)
  | fieldPlacedTwice (arm field : Nat)
  | fieldMissedZone (arm : Nat) (align : Alignment)
  | unplacedFields (arm count : Nat)
  | brokenChain (sum : Nat)
  | misalignedZone (zone : Alignment) (start : Nat)
deriving DecidableEq

def Fault.message : Fault → String
  | slotWrittenTwice slot => s!"offset slot {slot} written twice"
  | slotNeverWritten slot => s!"offset slot {slot} was never written"
  | fieldPlacedTwice arm field => s!"field {field} of arm {arm} placed twice"
  | fieldMissedZone arm align =>
    s!"arm {arm} still has a {align.text} field after its zone was closed"
  | unplacedFields arm count => s!"arm {arm} left {count} field(s) unplaced"
  | brokenChain sum => s!"subset chain broke at sum {sum}"
  | misalignedZone zone start => s!"{zone.text} zone starts at misaligned offset {start}"

inductive Cause where
  | dynamicArray
  | variableString
  | unsupportedVariant (encoding : String)
  | tooFewArms (found : Nat)
  | tooManyArms (found : Nat)
  | zeroSized (what : String)
  | unknownType (name : String)
  | notAStruct (name found : String)
  | invalidEnumRepr (name : String) (repr : Primitive)
  | recursiveType (name : String)
  | variableInFixedContext (name : String)
  | tooManyFields (max : Nat)
  | sizeOverflow
  /-- A degraded variant where only perfect ones are accepted. -/
  | imperfectLayout (reason : Degradation)
  | internal (fault : Fault)
deriving DecidableEq

def Cause.message : Cause → String
  | dynamicArray => "dynamic arrays cannot appear inside a fixed-size type"
  | variableString => "variable-length strings cannot appear inside a fixed-size type"
  | unsupportedVariant encoding =>
    s!"{encoding} variants are not supported; only fixed variants have a static layout"
  | tooFewArms found => s!"a variant needs at least two arms, found {found}"
  | tooManyArms found => s!"a variant has {found} arms; at most 65535 are supported"
  | zeroSized what => s!"zero-length {what} has no storage"
  | unknownType name => s!"unknown type `{name}`"
  | notAStruct name found => s!"`{name}` is an {found}, expected a struct"
  | invalidEnumRepr name repr =>
    s!"enum `{name}` must be stored as an integer, not `{repr.name}`"
  | recursiveType name => s!"struct `{name}` contains itself"
  | variableInFixedContext name =>
    s!"struct `{name}` has variable-length fields and cannot be embedded in a fixed-size type"
  | tooManyFields max => s!"more than {max} fixed fields"
  | sizeOverflow => "fixed size does not fit in 64 bits"
  | imperfectLayout reason => s!"variant layout is not zero-waste ({reason.message})"
  | internal fault => s!"internal layout error: {fault.message}"

structure LayoutError where
  cause : Cause
  span : Span
deriving DecidableEq

namespace LayoutError

def message (e : LayoutError) : String := e.cause.message

def overflow (span : Span) : LayoutError := ⟨.sizeOverflow, span⟩

/-- A fault has no place in the schema. -/
def ofFault (fault : Fault) : LayoutError := ⟨.internal fault, .dummy⟩

/-- Whether the layout itself is to blame and not the schema. -/
def isInternal (e : LayoutError) : Bool :=
  match e.cause with
  | .internal _ => true
  | _ => false

end LayoutError

/-- Why a computation stopped that does not know its place in the schema. -/
inductive Failure where
  | overflow
  | fault (fault : Fault)
deriving DecidableEq

/-- Overflows are blamed on `span`. -/
def Failure.locate (span : Span) : Failure → LayoutError
  | overflow => .overflow span
  | fault f => .ofFault f

/-- The result of a checked operation. -/
def orOverflow {α : Type} : Option α → Except Failure α
  | some x => .ok x
  | none => .error .overflow

@[simp] theorem orOverflow_some {α : Type} (x : α) : orOverflow (some x) = .ok x := rfl

@[simp] theorem orOverflow_none {α : Type} :
    orOverflow (none : Option α) = .error .overflow := rfl

end PackedLayout
