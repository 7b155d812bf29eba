import PackedLayout.Diagnostic.Basic
import PackedLayout.Diagnostic.Code
import PackedLayout.Source.Lines
import PackedLayout.Text.Json

/-!
# Reports

All diagnostics about one root struct for a program to read: with the category of each code, the
lines and columns of each label, and the source line it starts in.
-/

namespace PackedLayout

structure Place where
  line : Nat
  column : Nat
  byteOffset : Nat
deriving DecidableEq

def Lines.place (lines : Lines) (offset : Nat) : Place :=
  let (line, column) := lines.lineColumn offset
  ⟨line, column, offset⟩

structure ReportLabel where
  message : String
  start : Place
  stop : Place
  /-- The line the label starts in. -/
  sourceLine : String
deriving DecidableEq

structure ReportEntry where
  severity : Severity
  code : Option String
  category : Option Category
  message : String
  /-- Where the first label starts. -/
  location : Option Place
  labels : List ReportLabel
  notes : List String
  help : Option String
deriving DecidableEq

structure Report where
  version : Nat := 1
  file : String
  root : String
  entries : List ReportEntry
  errors : Nat
  warnings : Nat
deriving DecidableEq

namespace Report

def label (source : List Char) (lines : Lines) (l : Label) : ReportLabel :=
  let start := lines.place l.span.start
  { message := l.message
    start
    stop := lines.place l.span.stop
    sourceLine := String.ofList ((lines.lineText? source start.line).getD []) }

def entry (source : List Char) (lines : Lines) (d : Diagnostic) : ReportEntry where
  severity := d.severity
  code := d.code
  category := (d.code.bind CodeInfo.find?).map (·.category)
  message := d.message
  location := d.firstSpan?.map fun span => lines.place span.start
  labels := d.labels.map (label source lines)
  notes := d.notes
  help := d.help

def of (source file root : String) (diagnostics : List Diagnostic) : Report where
  file
  root
  entries :=
    let text := source.toList
    diagnostics.map (entry text (Lines.of text))
  errors := diagnostics.countP (·.severity == .error)
  warnings := diagnostics.countP (·.severity == .warning)

/-- Warnings are no failure. -/
def success (report : Report) : Bool := report.errors == 0

/-- An entry that is there only with a value. -/
def optional (key : String) : Option Json → List (String × Json)
  | some value => [(key, value)]
  | none => []

def placeJson (place : Place) : Json :=
  .object [("line", .number place.line), ("column", .number place.column),
    ("byte_offset", .number place.byteOffset)]

def labelJson (l : ReportLabel) : Json :=
  .object [("message", .text l.message), ("start", placeJson l.start), ("end", placeJson l.stop),
    ("source_line", .text l.sourceLine)]

def entryJson (e : ReportEntry) : Json :=
  .object <|
    [("severity", .text e.severity.text)] ++
    optional "code" (e.code.map .text) ++
    optional "category" (e.category.map fun c => .text c.text) ++
    [("message", .text e.message)] ++
    optional "location" (e.location.map placeJson) ++
    [("labels", .list (e.labels.map labelJson))] ++
    (if e.notes.isEmpty then [] else [("notes", .list (e.notes.map .text))]) ++
    optional "help" (e.help.map .text)

def json (report : Report) : Json :=
  .object [
    ("version", .number report.version),
    ("file", .text report.file),
    ("root", .text report.root),
    ("success", .bool report.success),
    ("diagnostics", .list (report.entries.map entryJson)),
    ("error_count", .number report.errors),
    ("warning_count", .number report.warnings)]

def text (report : Report) : String := report.json.pretty 0

end Report

end PackedLayout
