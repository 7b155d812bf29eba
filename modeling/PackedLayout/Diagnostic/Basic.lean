import PackedLayout.Source.Span

/-!
# Diagnostics

What a reader is told about an error or a warning: a message, the places it is about, notes and
at most one piece of help.
-/

namespace PackedLayout

inductive Severity where
  | error
  | warning
deriving DecidableEq

def Severity.text : Severity → String
  | error => "error"
  | warning => "warning"

/-- A place in the schema and what is wrong there. -/
structure Label where
  span : Span
  message : String
deriving DecidableEq

structure Diagnostic where
  severity : Severity
  code : Option String := none
  message : String
  labels : List Label := []
  notes : List String := []
  help : Option String := none
deriving DecidableEq

namespace Diagnostic

def error (message : String) : Diagnostic := { severity := .error, message }

def warning (message : String) : Diagnostic := { severity := .warning, message }

def withCode (d : Diagnostic) (code : String) : Diagnostic := { d with code := some code }

/-- Labels a place. The dummy span is no place, and gets no label. -/
def withLabel (d : Diagnostic) (span : Span) (message : String) : Diagnostic :=
  if span = .dummy then d else { d with labels := d.labels ++ [⟨span, message⟩] }

def withNote (d : Diagnostic) (note : String) : Diagnostic := { d with notes := d.notes ++ [note] }

/-- Replaces the help there was before. -/
def withHelp (d : Diagnostic) (help : String) : Diagnostic := { d with help := some help }

def isError (d : Diagnostic) : Bool := d.severity == .error

/-- The place of the first label. -/
def firstSpan? (d : Diagnostic) : Option Span := d.labels.head?.map (·.span)

end Diagnostic

end PackedLayout
