import PackedLayout.Schema.Basic

/-!
# Building a schema

A builder adds nodes and declarations to a schema. All of them take the span the builder is at.
-/

namespace PackedLayout

structure SchemaBuilder where
  schema : Schema := .empty
  span : Span := .dummy

namespace SchemaBuilder

def empty : SchemaBuilder := {}

/-- The span of what is added from now on. -/
def moveTo (b : SchemaBuilder) (span : Span) : SchemaBuilder := { b with span }

def node (b : SchemaBuilder) (form : TypeForm) : TypeId × SchemaBuilder :=
  let (id, types) := b.schema.types.alloc ⟨form, b.span⟩
  (id, { b with schema := { b.schema with types } })

def fields (b : SchemaBuilder) (fields : List (String × TypeId)) : List Field :=
  fields.map fun (name, type) => ⟨name, type, b.span⟩

def record (b : SchemaBuilder) (fields : List (String × TypeId)) : TypeId × SchemaBuilder :=
  b.node (.record (b.fields fields))

def declare (b : SchemaBuilder) (name : String) (kind : DeclarationKind) : SchemaBuilder :=
  { b with schema := (b.schema.insert ⟨name, kind, b.span⟩).2 }

def struct (b : SchemaBuilder) (name : String) (fields : List (String × TypeId)) :
    SchemaBuilder :=
  b.declare name (.struct (b.fields fields))

/-- The variants of an enum are numbered from 0. -/
def enum (b : SchemaBuilder) (name : String) (repr : Primitive) (variants : List String) :
    SchemaBuilder :=
  b.declare name (.enum repr (variants.zipIdx.map fun (variant, i) => ⟨variant, i⟩))

end SchemaBuilder

end PackedLayout
