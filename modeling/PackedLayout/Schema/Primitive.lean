/-!
# Primitive types

The primitive types of a schema. A primitive's size is also its natural alignment.
-/

namespace PackedLayout

inductive Primitive where
  | bool
  | int8
  | int16
  | int32
  | int64
  | uint8
  | uint16
  | uint32
  | uint64
  | float32
  | float64
deriving DecidableEq

namespace Primitive

def all : List Primitive :=
  [bool, int8, int16, int32, int64, uint8, uint16, uint32, uint64, float32, float64]

def size : Primitive → Nat
  | bool | int8 | uint8 => 1
  | int16 | uint16 => 2
  | int32 | uint32 | float32 => 4
  | int64 | uint64 | float64 => 8

/-- Whether an enum may be stored as this primitive. -/
def isInteger : Primitive → Bool
  | bool | float32 | float64 => false
  | _ => true

def name : Primitive → String
  | bool => "bool"
  | int8 => "i8"
  | int16 => "i16"
  | int32 => "i32"
  | int64 => "i64"
  | uint8 => "u8"
  | uint16 => "u16"
  | uint32 => "u32"
  | uint64 => "u64"
  | float32 => "f32"
  | float64 => "f64"

def ofName? (name : String) : Option Primitive := all.find? fun p => p.name == name

theorem mem_all (p : Primitive) : p ∈ all := by cases p <;> decide

theorem ofName?_name (p : Primitive) : ofName? p.name = some p := by cases p <;> decide

theorem name_of_ofName? {text : String} {p : Primitive} (h : ofName? text = some p) :
    p.name = text := by
  simpa using List.find?_some h

end Primitive

end PackedLayout
