import PackedLayout.Engine.TypeLayout

/-!
# Layout engines

An engine lays out the structs of one schema and keeps a template of each. `template` lays out a
struct on its first use. It recurs at most once for each declaration, since a struct that is
underway may not be used again.
-/

namespace PackedLayout

/-- Puts a type into a draft, as deep as the schema can nest it. -/
def layOutNode (setting : Setting) (struct : StructLayout) : TypeLayout :=
  layOutType setting struct setting.maxDepth

/-- The zones of an element of a dynamic array, and the warnings about it. -/
def elementFootprint (setting : Setting) (struct : StructLayout) (element : TypeId) :
    EngineM (UnitCounts × Array Warning) := do
  let draft ← layOutNode setting struct element .empty
  match footprint? setting.width draft.container.zones with
  | some footprint => return (footprint, draft.warnings)
  | none => throw (.overflow (setting.spanOf element))

/-- Lays out one field of a struct. A field of variable length puts nothing into the draft; it is
put in front of the ones found before. -/
def layOutField (setting : Setting) (struct : StructLayout)
    (sofar : Draft × List TrailingField) (field : Field) :
    EngineM (Draft × List TrailingField) := do
  let (draft, trailing) := sofar
  match setting.schema.type? field.type with
  | some ⟨.string, _⟩ => return (draft, ⟨field.name, 1, .one⟩ :: trailing)
  | some ⟨.array element .dynamic, span⟩ =>
    let (footprint, warnings) ← elementFootprint setting struct element
    match footprint.largest? with
    | none => throw ⟨.zeroSized "array element", span⟩
    | some align =>
      return ({ draft with warnings := draft.warnings ++ warnings },
        ⟨field.name, footprint.totalBytes setting.width, align⟩ :: trailing)
  | _ => return (← layOutNode setting struct field.type draft, trailing)

/-- Lays out the fields of a struct that is declared at `span`. -/
def layOutStruct (setting : Setting) (struct : StructLayout) (name : String)
    (fields : List Field) (span : Span) : EngineM Template := do
  let (draft, trailing) ← fields.foldlM (layOutField setting struct) (.empty, [])
  match footprint? setting.width draft.container.zones with
  | none => throw (.overflow span)
  | some footprint =>
    return {
      name
      slots := draft.slots
      zones := draft.container.zones
      footprint
      packs := draft.packs
      variants := draft.variants
      trailing := trailing.reverse
      warnings := draft.warnings }

/-- The fields of a struct that may be laid out now, and where it is declared. -/
def structBody (setting : Setting) (name : String) (span : Span) :
    EngineM (List Field × Span) := do
  match setting.schema.declaration? name with
  | none => throw ⟨.unknownType name, span⟩
  | some ⟨_, .enum repr variants, _⟩ =>
    throw ⟨.notAStruct name (DeclarationKind.enum repr variants).text, span⟩
  | some ⟨_, .struct fields, declared⟩ =>
    if (← get).underway.contains name then throw ⟨.recursiveType name, span⟩
    else return (fields, declared)

/-- The template of a struct, from the cache or made now, with at most `depth` more structs
underway. At 0 every declared struct is underway. -/
def template (setting : Setting) : Nat → StructLayout
  | depth, name, span => do
    match (← get).template? name with
    | some t => return t
    | none =>
      let (fields, declared) ← structBody setting name span
      match depth with
      | 0 => throw ⟨.recursiveType name, span⟩
      | depth + 1 =>
        let t ← whileUnderway name
          (layOutStruct setting (template setting depth) name fields declared)
        modify (Cache.insert t)
        return t

structure Engine where
  setting : Setting
  cache : Cache := .empty

namespace Engine

def withOptions (schema : Schema) (options : Options) : Engine := { setting := { schema, options } }

def new (schema : Schema) : Engine := withOptions schema .default

/-- The number of structs laid out so far. -/
def cached (engine : Engine) : Nat := engine.cache.templates.length

/-- The template of a root struct, and where the root is declared. -/
def rootTemplate (setting : Setting) (root : String) : EngineM (Template × Span) := do
  let span := (setting.schema.declaration? root).elim .dummy (·.span)
  return (← template setting setting.schema.declarations.length root span, span)

/-- Lays out a root struct. -/
def layOut (engine : Engine) (root : String) : Except LayoutError Layout × Engine :=
  let (result, cache) := rootTemplate engine.setting root engine.cache
  (result.bind fun (t, span) => (t.toLayout engine.setting.width).mapError (Failure.locate span),
    { engine with cache })

end Engine

/-- Lays out a root struct of a schema with an engine of its own. -/
def Schema.layOut (schema : Schema) (root : String) (options : Options) :
    Except LayoutError Layout :=
  ((Engine.withOptions schema options).layOut root).1

end PackedLayout
