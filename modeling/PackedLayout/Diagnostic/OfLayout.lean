import PackedLayout.Diagnostic.Basic
import PackedLayout.Diagnostic.Suggestion
import PackedLayout.Layout.Basic
import PackedLayout.Schema.Basic

/-!
# Diagnostics of layouts

One diagnostic for every cause of an error and every degradation of a variant.
-/

namespace PackedLayout

def LayoutError.diagnostic (e : LayoutError) : Diagnostic :=
  let start := Diagnostic.error e.message
  match e.cause with
  | .dynamicArray =>
    ((start.withCode "L0001").withLabel e.span "length only known at runtime").withHelp
      "give the array a fixed length, or move it to a top-level field"
  | .variableString =>
    ((start.withCode "L0002").withLabel e.span "length only known at runtime").withHelp
      "use a fixed-length string, or move it to a top-level field"
  | .unsupportedVariant _ =>
    ((start.withCode "L0003").withLabel e.span "this variant").withHelp
      "declare the variant as fixed"
  | .tooFewArms _ => (start.withCode "L0004").withLabel e.span "this variant"
  | .zeroSized _ => (start.withCode "L0005").withLabel e.span "zero length"
  | .variableInFixedContext name =>
    ((start.withCode "L0006").withLabel e.span s!"`{name}` used here").withNote
      "only the root struct may end in variable-length data"
  | .unknownType _ => (start.withCode "L0100").withLabel e.span "not declared"
  | .notAStruct _ _ => (start.withCode "L0101").withLabel e.span "expected a struct"
  | .invalidEnumRepr _ _ =>
    ((start.withCode "L0102").withLabel e.span "used here").withHelp
      "use an integer type such as `u8` or `u32`"
  | .recursiveType _ =>
    ((start.withCode "L0103").withLabel e.span "recursive reference").withNote
      "a fixed-size struct cannot contain itself, even through an array or variant"
  | .tooManyArms _ => (start.withCode "L0200").withLabel e.span "this variant"
  | .tooManyFields _ =>
    ((start.withCode "L0201").withLabel e.span "limit reached here").withHelp
      "move large arrays of structs into a variable-length field"
  | .sizeOverflow => (start.withCode "L0202").withLabel e.span "too large"
  | .imperfectLayout reason =>
    (((start.withCode "L0300").withLabel e.span "this variant").withNote reason.message).withHelp
      "turn off `require_perfect` to accept a padded layout"
  | .internal _ =>
    ((start.withCode "L0900").withLabel e.span "while laying out this").withNote
      "this is a bug in the layout engine, not in the schema"

/-- The diagnostic of an error, with a suggestion for the name of an unknown type. -/
def LayoutError.diagnosticIn (schema : Schema) (e : LayoutError) : Diagnostic :=
  match e.cause with
  | .unknownType name =>
    match suggestion? name schema.names with
    | some hint => e.diagnostic.withHelp hint
    | none => e.diagnostic
  | _ => e.diagnostic

def Warning.diagnostic (warning : Warning) : Diagnostic :=
  let start := Diagnostic.warning warning.message
  match warning.degradation with
  | .noPerfectBoundary zone _ =>
    ((start.withCode "L0301").withLabel warning.span
      s!"arms cannot fill the {zone.text} zone exactly").withHelp
      "reordering or resizing small fields in the arms may allow a zero-waste layout"
  | .searchSkipped _ _ =>
    ((start.withCode "L0302").withLabel warning.span "this variant").withHelp
      "raise `max_search_bytes` to search larger variants"
  | .padded wasted =>
    (start.withCode "L0303").withLabel warning.span s!"{wasted} byte(s) unused by every arm"

/-- The warnings of a layout, in the order they were found. -/
def Layout.diagnostics (layout : Layout) : List Diagnostic :=
  layout.warnings.toList.map Warning.diagnostic

/-- Everything worth reporting about the result of laying out a schema. -/
def resultDiagnostics (schema : Schema) : Except LayoutError Layout → List Diagnostic
  | .ok layout => layout.diagnostics
  | .error e => [e.diagnosticIn schema]

end PackedLayout
