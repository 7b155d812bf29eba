import PackedLayout.Engine.Cache
import PackedLayout.Engine.Draft
import PackedLayout.Schema.Basic

/-!
# Laying out types

Laying out a type node puts its leaves, packs and variants into a draft. The parts of a type go
through a function for type nodes, and named structs through a function for names; `layOutType`
ties the first knot, down to a depth.

A type node may contain itself. Such a type is gone through again and again until the slots or the
bytes run out, so it has no layout but an error. `maxDepth` is as deep as this can go: there are
`maxSlots + 1` numbers of slots given out, and a node that is met inside itself with no slot given
out in between is met so forever.
-/

namespace PackedLayout

/-- What stays the same while a schema is laid out. -/
structure Setting where
  schema : Schema
  options : Options := .default
  width : Width := .bits64

/-- How deep type nodes can be nested before the slots run out. -/
def Setting.maxDepth (setting : Setting) : Nat := setting.schema.types.size * (maxSlots + 1)

/-- Where a type node stands; nowhere if there is no such node. -/
def Setting.spanOf (setting : Setting) (id : TypeId) : Span :=
  (setting.schema.type? id).elim .dummy (·.span)

/-- Puts the type `id` into a draft. -/
abbrev TypeLayout := TypeId → Draft → EngineM Draft

/-- Finds the template of the struct of a name that is used at a place. -/
abbrev StructLayout := String → Span → EngineM Template

/-- Bytes of the tag of a variant. -/
def tagSize (arms : Nat) : Nat := if arms ≤ 255 then 1 else 2

/-- Only fixed variants of 2 to 65535 arms have a layout. -/
def checkVariant (arms : Nat) (encoding : VariantEncoding) (span : Span) :
    Except LayoutError Unit :=
  match encoding with
  | .packed => .error ⟨.unsupportedVariant "packed", span⟩
  | .dynamic => .error ⟨.unsupportedVariant "dynamic", span⟩
  | .fixed =>
    if arms < 2 then .error ⟨.tooFewArms arms, span⟩
    else if 65535 < arms then .error ⟨.tooManyArms arms, span⟩
    else .ok ()

def layOutFields (layOut : TypeLayout) (fields : List Field) (draft : Draft) : EngineM Draft :=
  fields.foldlM (fun draft field => layOut field.type draft) draft

/-- Lays out the element of an array once, in a body of its own. -/
def layOutArray (w : Width) (span : Span) (layOut : TypeLayout) (element : TypeId) (length : Nat)
    (draft : Draft) : EngineM Draft := do
  let (outer, draft) := draft.exchange .emptyBody
  let (inner, draft) := (← layOut element draft).exchange outer
  draft.putArray w span length inner.zones

/-- Collects the fields of the arms, numbered from `index` on. The draft comes in an empty arm and
is left in one. -/
def collectArms (w : Width) (span : Span) (layOut : TypeLayout) :
    Nat → List Arm → List TypeId → Draft → EngineM (List Arm × Draft)
  | _, collected, [], draft => return (collected.reverse, draft)
  | index, collected, id :: rest, draft => do
    let (inner, draft) := (← layOut id draft).exchange (.arm [])
    match Arm.of? w index inner.items with
    | some arm => collectArms w span layOut (index + 1) (arm :: collected) rest draft
    | none => throw (.overflow span)

/-- Lays out a variant: its tag, the fields of all arms, and the storage they share. -/
def layOutVariant (w : Width) (options : Options) (span : Span) (layOut : TypeLayout)
    (arms : List TypeId) (draft : Draft) : EngineM Draft := do
  let tag := draft.slots
  let size := tagSize arms.length
  let (outer, draft) := (← draft.putLeaf w span (.ofSize size) size).exchange (.arm [])
  let (collected, draft) ← collectArms w span layOut 0 [] arms draft
  let resolution ← (Resolution.ofArms w options.maxSearchBytes collected).mapError
    (Failure.locate span)
  (draft.exchange outer).2.putVariant w options span tag arms.length resolution

/-- Lays out a declared type: an enum as its representation, a struct as a copy of its template. -/
def layOutNamed (setting : Setting) (span : Span) (struct : StructLayout) (name : String)
    (draft : Draft) : EngineM Draft := do
  match setting.schema.declaration? name with
  | none => throw ⟨.unknownType name, span⟩
  | some ⟨_, .enum repr _, _⟩ =>
    if repr.isInteger then draft.putLeaf setting.width span (.ofSize repr.size) repr.size
    else throw ⟨.invalidEnumRepr name repr, span⟩
  | some ⟨_, .struct _, _⟩ =>
    let template ← struct name span
    if template.trailing.isEmpty then draft.embed setting.width span template
    else throw ⟨.variableInFixedContext name, span⟩

/-- Puts a type into a draft, down to `depth` nodes. A type that is deeper never ends. -/
def layOutType (setting : Setting) (struct : StructLayout) : Nat → TypeLayout
  | 0, id, _ => throw (.overflow (setting.spanOf id))
  | depth + 1, id, draft => do
    let w := setting.width
    let layOut := layOutType setting struct depth
    match setting.schema.type? id with
    | none => throw ⟨.unknownType s!"#{id.raw}", .dummy⟩
    | some ⟨form, span⟩ =>
      match form with
      | .primitive p => draft.putLeaf w span (.ofSize p.size) p.size
      | .fixedString 0 => throw ⟨.zeroSized "string", span⟩
      | .fixedString length => draft.putLeaf w span .one length
      | .string => throw ⟨.variableString, span⟩
      | .array _ .dynamic => throw ⟨.dynamicArray, span⟩
      | .array _ (.fixed 0) => throw ⟨.zeroSized "array", span⟩
      | .array element (.fixed length) => layOutArray w span layOut element length draft
      | .variant arms encoding =>
        checkVariant arms.length encoding span
        layOutVariant w setting.options span layOut arms draft
      | .record fields => layOutFields layOut fields draft
      | .named name => layOutNamed setting span struct name draft

end PackedLayout
