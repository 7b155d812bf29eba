import PackedLayout.Arena
import PackedLayout.Schema.Primitive
import PackedLayout.Source.Span

/-!
# Schemas

A schema holds type nodes, which refer to one another by index, and named declarations in the
order of their first insertion. Inserting under a name that is taken replaces the declaration
and keeps its place.
-/

namespace PackedLayout

/-- Names a type node of a schema. -/
abbrev TypeId := Idx

/-- A field of a struct or of a record. -/
structure Field where
  name : String
  type : TypeId
  span : Span
deriving DecidableEq

inductive ArrayLength where
  | fixed (length : Nat)
  | dynamic
deriving DecidableEq

/-- How a variant stores its arms: in one shared area, sized to the active arm, or elsewhere. -/
inductive VariantEncoding where
  | fixed
  | packed
  | dynamic
deriving DecidableEq

inductive TypeForm where
  | primitive (p : Primitive)
  /-- Exactly `length` bytes. -/
  | fixedString (length : Nat)
  /-- A string of any length; it can only be a direct field of a root struct. -/
  | string
  | array (element : TypeId) (length : ArrayLength)
  /-- A tagged union of the arms. -/
  | variant (arms : List TypeId) (encoding : VariantEncoding)
  /-- An anonymous list of fields. -/
  | record (fields : List Field)
  /-- A struct or an enum, by name. -/
  | named (name : String)
deriving DecidableEq

structure TypeNode where
  form : TypeForm
  span : Span
deriving DecidableEq

structure Enumerator where
  name : String
  value : Int
deriving DecidableEq

inductive DeclarationKind where
  | struct (fields : List Field)
  /-- The discriminant is stored as `repr`. -/
  | enum (repr : Primitive) (variants : List Enumerator)
deriving DecidableEq

/-- The word messages use for the kind of a declaration. -/
def DeclarationKind.text : DeclarationKind → String
  | struct _ => "struct"
  | enum _ _ => "enum"

structure Declaration where
  name : String
  kind : DeclarationKind
  span : Span
deriving DecidableEq

/-- Puts a declaration in the place of the one of its name, or at the end. -/
def insertDeclaration (d : Declaration) : List Declaration → List Declaration
  | [] => [d]
  | e :: rest => if e.name = d.name then d :: rest else e :: insertDeclaration d rest

structure Schema where
  types : Arena TypeNode := .empty
  declarations : List Declaration := []

namespace Schema

def empty : Schema := {}

def type? (schema : Schema) (id : TypeId) : Option TypeNode := schema.types.get? id

def declaration? (schema : Schema) (name : String) : Option Declaration :=
  schema.declarations.find? fun d => d.name == name

/-- The fields of a struct; nothing for an enum. -/
def structFields? (schema : Schema) (name : String) : Option (List Field) :=
  match schema.declaration? name with
  | some ⟨_, .struct fields, _⟩ => some fields
  | _ => none

def names (schema : Schema) : List String := schema.declarations.map (·.name)

/-- Inserts a declaration, and gives the one it replaced beside the new schema. -/
def insert (schema : Schema) (d : Declaration) : Option Declaration × Schema :=
  (schema.declaration? d.name,
    { schema with declarations := insertDeclaration d schema.declarations })

theorem find?_insertDeclaration (d : Declaration) (name : String) (ds : List Declaration) :
    (insertDeclaration d ds).find? (fun e => e.name == name) =
      if d.name = name then some d else ds.find? (fun e => e.name == name) := by
  induction ds with
  | nil => by_cases h : d.name = name <;> simp [insertDeclaration, h]
  | cons e rest ih =>
    by_cases taken : e.name = d.name
    · by_cases h : d.name = name <;> simp [insertDeclaration, taken, h]
    · rw [insertDeclaration, if_neg taken]
      by_cases here : e.name = name
      · have differ : d.name ≠ name := fun same => taken (here.trans same.symm)
        simp [here, differ]
      · simp [here, ih]

theorem declaration?_insert (schema : Schema) (d : Declaration) (name : String) :
    (schema.insert d).2.declaration? name =
      if d.name = name then some d else schema.declaration? name :=
  find?_insertDeclaration d name schema.declarations

end Schema

end PackedLayout
