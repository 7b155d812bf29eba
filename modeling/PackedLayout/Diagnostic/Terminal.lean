import PackedLayout.Diagnostic.Basic
import PackedLayout.Source.Lines

/-!
# Diagnostics on a terminal

A diagnostic is shown as rows: a header, the place of the first label, every source line that a
label starts in with carets under the labelled columns, and a footer of notes and help. Columns
and widths count bytes.
-/

namespace PackedLayout

inductive Color where
  | red
  | yellow
  | blue
  | cyan
deriving DecidableEq

def Color.code : Color → String
  | red => "31"
  | yellow => "33"
  | blue => "34"
  | cyan => "36"

structure Style where
  bold : Bool := false
  color : Option Color := none
deriving DecidableEq

namespace Style

/-- The sequence that begins the style. -/
def opening (style : Style) : String :=
  let codes := (if style.bold then ["1"] else []) ++ style.color.toList.map Color.code
  "\x1b[" ++ String.intercalate ";" codes ++ "m"

/-- The sequence that ends every style. -/
def reset : String := "\x1b[0m"

/-- Begins the style again after every reset inside a text. -/
def reopen (opening : List Char) : List Char → List Char
  | '\x1b' :: '[' :: '0' :: 'm' :: rest => reset.toList ++ opening ++ reopen opening rest
  | c :: rest => c :: reopen opening rest
  | [] => []

def paint (style : Style) (color : Bool) (text : String) : String :=
  if color then
    style.opening ++ String.ofList (reopen style.opening.toList text.toList) ++ reset
  else text

def boldRed : Style := { bold := true, color := some .red }

def boldYellow : Style := { bold := true, color := some .yellow }

def boldBlue : Style := { bold := true, color := some .blue }

def boldCyan : Style := { bold := true, color := some .cyan }

def blue : Style := { color := some .blue }

def cyan : Style := { color := some .cyan }

def strong : Style := { bold := true }

end Style

/-- A label on one line: from its first column up to `stop`, which it does not cover. -/
structure Mark where
  start : Nat
  stop : Nat
  message : String
deriving DecidableEq

structure MarkedLine where
  number : Nat
  text : List Char
  marks : List Mark
deriving DecidableEq

/-- The line a label starts in, its text, and the columns the label covers there. A label that
ends in another line covers the rest of its first line; every label covers a column. -/
def mark (source : List Char) (lines : Lines) (label : Label) : MarkedLine :=
  let (line, start) := lines.lineColumn label.span.start
  let (lastLine, lastColumn) := lines.lineColumn label.span.stop
  let text := (lines.lineText? source line).getD []
  let stop := if lastLine = line then lastColumn else utf8Size text + 1
  ⟨line, text, [⟨start, max stop (start + 1), label.message⟩]⟩

/-- Puts an annotated line among lines in ascending order; lines of one number become one. -/
def insertLine (new : MarkedLine) : List MarkedLine → List MarkedLine
  | [] => [new]
  | line :: rest =>
    if new.number < line.number then new :: line :: rest
    else if new.number = line.number then
      { line with marks := line.marks ++ new.marks } :: rest
    else line :: insertLine new rest

/-- The lines that labels start in, in ascending order, each with its labels in their order. -/
def markedLines (source : List Char) (lines : Lines) (labels : List Label) :
    List MarkedLine :=
  (labels.map (mark source lines)).foldl (fun sofar line => insertLine line sofar) []

namespace MarkedLine

/-- The marks by their first column, and in their order where they share it. -/
def sorted (line : MarkedLine) : List Mark :=
  line.marks.mergeSort fun a b => a.start ≤ b.start

/-- Cell `k` of the caret row stands under column `k + 1`; there is one cell past the text. -/
def cells (line : MarkedLine) : List Char :=
  (List.range (utf8Size line.text + 1)).map fun k =>
    if line.marks.any fun a => a.start ≤ k + 1 && k + 1 < a.stop then '^' else ' '

/-- The caret row up to its last caret. -/
def carets (line : MarkedLine) : List Char :=
  (line.cells.reverse.dropWhile (· == ' ')).reverse

end MarkedLine

inductive Row where
  | header (severity : Severity) (code : Option String) (message : String)
  | location (file : String) (line column : Nat)
  /-- A bar with nothing after it. -/
  | bar
  /-- Source lines are left out here. -/
  | gap
  | source (number : Nat) (text : List Char)
  | carets (cells : List Char) (message : Option String)
  /-- A message under the column its label starts at. -/
  | message (column : Nat) (text : String)
  | note (text : String)
  | help (text : String)
deriving DecidableEq

/-- The rows under a source line: the carets and the messages of its labels, the last label's
first. A single message stands beside the carets. -/
def markRows (line : MarkedLine) : List Row :=
  if line.carets.isEmpty then []
  else
    match line.sorted with
    | [only] => [.carets line.carets (some only.message)]
    | marks =>
      .carets line.carets none :: marks.reverse.map fun a => .message a.start a.message

/-- The rows of annotated lines, where `previous` is the number of the line shown before. -/
def lineRows : Option Nat → List MarkedLine → List Row
  | _, [] => []
  | previous, line :: rest =>
    let skipped := previous.any fun p => p + 1 < line.number
    (if skipped then [Row.gap] else []) ++
      .source line.number line.text :: markRows line ++ lineRows (some line.number) rest

def footerRows (d : Diagnostic) : List Row :=
  d.notes.map .note ++ d.help.toList.map .help

namespace Diagnostic

/-- The rows that show a diagnostic of a source text, given the lines its labels start in. -/
def rowsAt (file : Option String) (lines : List MarkedLine) (d : Diagnostic) : List Row :=
  let header := Row.header d.severity d.code d.message
  match lines with
  | [] => header :: footerRows d
  | first :: _ =>
    let column := (first.marks.head?.map (·.start)).getD 1
    let footer := footerRows d
    header :: .location (file.getD "<schema>") first.number column :: .bar ::
      lineRows none lines ++ (if footer.isEmpty then [] else .bar :: footer)

def rows (source : List Char) (file : Option String) (d : Diagnostic) : List Row :=
  d.rowsAt file (markedLines source (Lines.of source) d.labels)

end Diagnostic

def spaces (n : Nat) : String := String.ofList (List.replicate n ' ')

/-- The width of the column of line numbers: that of the last number, and at least 2. -/
def numberWidth (lines : List MarkedLine) : Nat :=
  max 2 ((lines.getLast?.map fun line => (toString line.number).length).getD 0)

/-- A number, filled up with spaces on its left. -/
def padLeft (width : Nat) (n : Nat) : String :=
  let digits := toString n
  spaces (width - digits.length) ++ digits

namespace Row

/-- The text of a row, given the width of the column of line numbers. -/
def text (color : Bool) (gutter : Nat) (row : Row) : String :=
  let bar := Style.blue.paint color "|"
  let emptyGutter := spaces (gutter + 1) ++ " " ++ bar
  let footer (kind text : String) :=
    spaces (gutter + 1) ++ " " ++ Style.cyan.paint color "=" ++ " " ++
      Style.boldCyan.paint color kind ++ ": " ++ text
  match row with
  | header severity code title =>
    let style := match severity with
      | .error => Style.boldRed
      | .warning => Style.boldYellow
    let code := match code with
      | some code => "[" ++ Style.boldRed.paint color code ++ "]"
      | none => ""
    style.paint color severity.text ++ code ++ ": " ++ Style.strong.paint color title
  | location file line column =>
    "  " ++ Style.blue.paint color "-->" ++ s!" {file}:{line}:{column}"
  | .bar => emptyGutter
  | gap => spaces gutter ++ " " ++ Style.blue.paint color "..."
  | source number line =>
    Style.boldBlue.paint color (padLeft (gutter + 1) number) ++ " " ++ bar ++ " " ++
      String.ofList line
  | carets cells none =>
    emptyGutter ++ " " ++ Style.boldRed.paint color (String.ofList cells)
  | carets cells (some beside) =>
    emptyGutter ++ " " ++ Style.boldRed.paint color (String.ofList cells) ++ " " ++
      Style.boldRed.paint color beside
  | message column body =>
    emptyGutter ++ " " ++ spaces (column - 1) ++ Style.boldRed.paint color body
  | note body => footer "note" body
  | help body => footer "help" body

end Row

/-- The text of a diagnostic, every row with a newline at its end. -/
def Diagnostic.format (source : String) (file : Option String) (color : Bool) (d : Diagnostic) :
    String :=
  let text := source.toList
  let lines := markedLines text (Lines.of text) d.labels
  String.join ((d.rowsAt file lines).map fun row => row.text color (numberWidth lines) ++ "\n")

end PackedLayout
