/-!
# Diagnostic codes

Every diagnostic of a layout has a code; the registry gives each a title and a category.
-/

namespace PackedLayout

inductive Category where
  /-- A type that has no fixed layout. -/
  | shape
  /-- A bad or circular reference between declarations. -/
  | reference
  /-- A schema beyond the limits of sizes and counts. -/
  | limit
  /-- A correct variant layout with waste. -/
  | layout
  | internal
deriving DecidableEq

def Category.text : Category → String
  | shape => "Shape"
  | reference => "Reference"
  | limit => "Limit"
  | layout => "Layout"
  | internal => "Internal"

structure CodeInfo where
  code : String
  title : String
  category : Category
deriving DecidableEq

namespace CodeInfo

/-- Every code, in ascending order. -/
def all : List CodeInfo := [
  ⟨"L0001", "dynamic array in fixed-size type", .shape⟩,
  ⟨"L0002", "variable-length string in fixed-size type", .shape⟩,
  ⟨"L0003", "unsupported variant encoding", .shape⟩,
  ⟨"L0004", "variant with fewer than two arms", .shape⟩,
  ⟨"L0005", "zero-sized field", .shape⟩,
  ⟨"L0006", "variable-length struct embedded", .shape⟩,
  ⟨"L0100", "unknown type", .reference⟩,
  ⟨"L0101", "expected a struct", .reference⟩,
  ⟨"L0102", "invalid enum representation", .reference⟩,
  ⟨"L0103", "recursive struct", .reference⟩,
  ⟨"L0200", "too many variant arms", .limit⟩,
  ⟨"L0201", "too many fixed fields", .limit⟩,
  ⟨"L0202", "fixed size overflow", .limit⟩,
  ⟨"L0300", "imperfect variant layout rejected", .layout⟩,
  ⟨"L0301", "no zero-waste zone boundary", .layout⟩,
  ⟨"L0302", "variant too large to search", .layout⟩,
  ⟨"L0303", "padded variant storage", .layout⟩,
  ⟨"L0900", "internal layout error", .internal⟩]

def find? (code : String) : Option CodeInfo := all.find? fun info => info.code == code

end CodeInfo

end PackedLayout
