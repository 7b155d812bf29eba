import Mathlib.Data.List.Forall2
import PackedLayout.Engine.TypeLayout

/-!
# Shapes

The shape of a type is the tree of its fields, written out: named structs are replaced by their
fields, and every leaf has its size and its natural alignment in bytes. `HasShape` relates the
types of a schema to their shapes, without any reference to a layout.

- `Shape.parts`: the leaves of a shape, depth first, each with the way to it; the tag of a variant
  comes before its arms;
- `Exclusive`: two elements of leaves that are never live together;
- `hasShape_unique`: a type has one shape at most.
-/

namespace PackedLayout

/-- One step on the way to a leaf. -/
inductive Step where
  | field (index : Nat)
  /-- Into every one of `length` elements. -/
  | element (length : Nat)
  | tag
  | arm (index : Nat)
deriving DecidableEq

/-- A leaf of a shape: a primitive, a reference to an enum, a string or a tag. -/
structure Part where
  /-- Outermost step first. -/
  path : List Step := []
  size : Nat
  /-- The natural alignment, in bytes. -/
  unit : Nat
deriving DecidableEq

/-- The lengths of the arrays on a way, outermost first. -/
def lengths : List Step → List Nat
  | [] => []
  | .element length :: rest => length :: lengths rest
  | _ :: rest => lengths rest

/-- Two elements lie in different arms of one variant: the ways to them part at its arms, and they
lie in the same element of every array around it. -/
def Exclusive (path : List Step) (indices : List Nat) (path' : List Step) (indices' : List Nat) :
    Prop :=
  ∃ around i j inner inner', path = around ++ .arm i :: inner ∧
    path' = around ++ .arm j :: inner' ∧ i ≠ j ∧
    indices.take (lengths around).length = indices'.take (lengths around).length

namespace Part

def under (step : Step) (part : Part) : Part := { part with path := step :: part.path }

@[simp] theorem path_under (step : Step) (part : Part) :
    (part.under step).path = step :: part.path := rfl

@[simp] theorem size_under (step : Step) (part : Part) : (part.under step).size = part.size := rfl

@[simp] theorem unit_under (step : Step) (part : Part) : (part.under step).unit = part.unit := rfl

end Part

theorem exclusive_arms {i j : Nat} (differ : i ≠ j) (path path' : List Step)
    (indices indices' : List Nat) :
    Exclusive (.arm i :: path) indices (.arm j :: path') indices' :=
  ⟨[], i, j, path, path', rfl, rfl, differ, rfl⟩

/-- Elements in different arms of a variant are exclusive only in the same element of every array
around the variant. -/
theorem exclusive_arms_iff (around : List Step) {i j : Nat} (differ : i ≠ j)
    {inner inner' : List Step} {indices indices' : List Nat} :
    Exclusive (around ++ .arm i :: inner) indices (around ++ .arm j :: inner') indices' ↔
      indices.take (lengths around).length = indices'.take (lengths around).length := by
  constructor
  · rintro ⟨around', i', j', _, _, here, there, differ', same⟩
    -- the ways part in one place only
    suffices around = around' by rwa [this]
    clear same
    induction around generalizing around' with
    | nil =>
      cases around' with
      | nil => rfl
      | cons step rest =>
        have first := (List.cons.inj here).1
        exact absurd (Step.arm.inj (first.trans (List.cons.inj there).1.symm)) differ
    | cons step rest ih =>
      cases around' with
      | nil =>
        have first := (List.cons.inj here).1
        exact absurd (Step.arm.inj (first.symm.trans (List.cons.inj there).1)) differ'
      | cons step' rest' =>
        rw [(List.cons.inj here).1, ih rest' (List.cons.inj here).2 (List.cons.inj there).2]
  · exact fun same => ⟨around, i, j, inner, inner', rfl, rfl, differ, same⟩

/-- The indices of an element one step further out. -/
def Step.extend (k : Nat) (indices : List Nat) : Step → List Nat
  | .element _ => k :: indices
  | _ => indices

theorem lengths_cons (step : Step) (path : List Step) :
    (lengths (step :: path)).length = (step.extend 0 []).length + (lengths path).length := by
  cases step <;> simp [lengths, Step.extend, Nat.add_comm]

/-- Elements that are exclusive inside a step are exclusive outside of it. -/
theorem Exclusive.under {path path' : List Step} {indices indices' : List Nat}
    (h : Exclusive path indices path' indices') (step : Step) (k : Nat) :
    Exclusive (step :: path) (step.extend k indices) (step :: path') (step.extend k indices') := by
  obtain ⟨around, i, j, inner, inner', rfl, rfl, differ, same⟩ := h
  refine ⟨step :: around, i, j, inner, inner', rfl, rfl, differ, ?_⟩
  rw [lengths_cons]
  cases step with
  | element length =>
    simp only [Step.extend, List.length_cons, List.length_nil, Nat.zero_add,
      Nat.add_comm 1, List.take_succ_cons, same]
  | field index => simpa [Step.extend] using same
  | tag => simpa [Step.extend] using same
  | arm index => simpa [Step.extend] using same

inductive Shape where
  | leaf (size unit : Nat)
  | array (length : Nat) (element : Shape)
  | variant (arms : List Shape)
  | record (fields : List Shape)

namespace Shape

mutual

/-- The leaves of a shape, in the order of their slots. -/
def parts : Shape → List Part
  | .leaf size unit => [⟨[], size, unit⟩]
  | .array length element => element.parts.map (Part.under (.element length))
  | .variant arms =>
    ⟨[.tag], tagSize arms.length, tagSize arms.length⟩ :: branches .arm 0 arms
  | .record fields => branches .field 0 fields

/-- The leaves of some shapes, each under a step of its own, numbered from `index` on. -/
def branches (step : Nat → Step) (index : Nat) : List Shape → List Part
  | [] => []
  | shape :: rest =>
    shape.parts.map (Part.under (step index)) ++ branches step (index + 1) rest

end

theorem branches_append (step : Nat → Step) (index : Nat) (shapes others : List Shape) :
    branches step index (shapes ++ others) =
      branches step index shapes ++ branches step (index + shapes.length) others := by
  induction shapes generalizing index with
  | nil => rfl
  | cons shape rest ih =>
    have further : index + 1 + rest.length = index + (shape :: rest).length := by
      rw [List.length_cons]
      omega
    rw [List.cons_append, branches, branches, ih, further, List.append_assoc]

theorem branches_concat (step : Nat → Step) (shapes : List Shape) (shape : Shape) :
    branches step 0 (shapes ++ [shape]) =
      branches step 0 shapes ++ shape.parts.map (Part.under (step shapes.length)) := by
  rw [branches_append, branches, branches, List.append_nil, Nat.zero_add]

theorem mem_branches {step : Nat → Step} {index : Nat} {shapes : List Shape} {part : Part}
    (member : part ∈ branches step index shapes) :
    ∃ shape ∈ shapes, ∃ inner ∈ shape.parts, part.size = inner.size := by
  induction shapes generalizing index with
  | nil => exact absurd member List.not_mem_nil
  | cons shape rest ih =>
    obtain first | later := List.mem_append.mp member
    · obtain ⟨inner, listed, rfl⟩ := List.mem_map.mp first
      exact ⟨shape, List.mem_cons_self, inner, listed, rfl⟩
    · obtain ⟨other, listed, inner⟩ := ih later
      exact ⟨other, List.mem_cons_of_mem _ listed, inner⟩

end Shape

/-- The shapes of the types of a schema. -/
inductive HasShape (schema : Schema) : TypeId → Shape → Prop
  | primitive {id : TypeId} {p : Primitive} {span : Span}
    (node : schema.type? id = some ⟨.primitive p, span⟩) : HasShape schema id (.leaf p.size p.size)
  | string {id : TypeId} {length : Nat} {span : Span}
    (node : schema.type? id = some ⟨.fixedString length, span⟩) :
    HasShape schema id (.leaf length 1)
  | array {id element : TypeId} {length : Nat} {span : Span} {shape : Shape}
    (node : schema.type? id = some ⟨.array element (.fixed length), span⟩)
    (inner : HasShape schema element shape) : HasShape schema id (.array length shape)
  | variant {id : TypeId} {arms : List TypeId} {span : Span} {shapes : List Shape}
    (node : schema.type? id = some ⟨.variant arms .fixed, span⟩)
    (inner : List.Forall₂ (HasShape schema) arms shapes) : HasShape schema id (.variant shapes)
  | record {id : TypeId} {fields : List Field} {span : Span} {shapes : List Shape}
    (node : schema.type? id = some ⟨.record fields, span⟩)
    (inner : List.Forall₂ (HasShape schema) (fields.map (·.type)) shapes) :
    HasShape schema id (.record shapes)
  | enum {id : TypeId} {name key : String} {span declared : Span} {repr : Primitive}
    {variants : List Enumerator} (node : schema.type? id = some ⟨.named name, span⟩)
    (declaration : schema.declaration? name = some ⟨key, .enum repr variants, declared⟩) :
    HasShape schema id (.leaf repr.size repr.size)
  | struct {id : TypeId} {name key : String} {span declared : Span} {fields : List Field}
    {shapes : List Shape} (node : schema.type? id = some ⟨.named name, span⟩)
    (declaration : schema.declaration? name = some ⟨key, .struct fields, declared⟩)
    (inner : List.Forall₂ (HasShape schema) (fields.map (·.type)) shapes) :
    HasShape schema id (.record shapes)

namespace Schema

/-- Fields of variable length, which have no shape. -/
def isTrailing (schema : Schema) (field : Field) : Bool :=
  match schema.type? field.type with
  | some ⟨.string, _⟩ => true
  | some ⟨.array _ .dynamic, _⟩ => true
  | _ => false

theorem isTrailing_eq_false {schema : Schema} {field : Field} :
    schema.isTrailing field = false ↔
      (∀ span, schema.type? field.type ≠ some ⟨.string, span⟩) ∧
        ∀ element span, schema.type? field.type ≠ some ⟨.array element .dynamic, span⟩ := by
  unfold isTrailing
  split
  · rename_i span node
    exact ⟨nofun, fun h => absurd node (h.1 span)⟩
  · rename_i element span node
    exact ⟨nofun, fun h => absurd node (h.2 element span)⟩
  · rename_i notString notDynamic
    exact ⟨fun _ => ⟨notString, notDynamic⟩, fun _ => rfl⟩

/-- The shape of the fixed part of a root struct. -/
def RootShape (schema : Schema) (root : String) (shape : Shape) : Prop :=
  ∃ fields shapes, schema.structFields? root = some fields ∧
    List.Forall₂ (HasShape schema)
      ((fields.filter fun field => !schema.isTrailing field).map (·.type)) shapes ∧
    shape = .record shapes

end Schema

/-- A type has one shape at most. -/
theorem hasShape_unique {schema : Schema} {id : TypeId} {shape : Shape}
    (h : HasShape schema id shape) : ∀ other, HasShape schema id other → shape = other := by
  refine HasShape.rec
    (motive_1 := fun id shape _ => ∀ other, HasShape schema id other → shape = other)
    (motive_2 := fun ids shapes _ =>
      ∀ others, List.Forall₂ (HasShape schema) ids others → shapes = others)
    ?primitive ?string ?array ?variant ?record ?enum ?struct ?nil ?cons h
  case primitive =>
    intro _ _ _ node other h'
    cases h' <;> grind
  case string =>
    intro _ _ _ node other h'
    cases h' <;> grind
  case array =>
    intro _ _ _ _ _ node _ ih other h'
    cases h' <;> grind
  case variant =>
    intro _ _ _ _ node _ ih other h'
    cases h' <;> grind
  case record =>
    intro _ _ _ _ node _ ih other h'
    cases h' <;> grind
  case enum =>
    intro _ _ _ _ _ _ _ node declared other h'
    cases h' <;> grind
  case struct =>
    intro _ _ _ _ _ _ _ node declared _ ih other h'
    cases h' <;> grind
  case nil =>
    intro others h
    cases h
    rfl
  case cons =>
    intro _ _ _ _ _ _ first rest others h
    cases h with
    | cons first' rest' => rw [first _ first', rest _ rest']

theorem forall₂_hasShape_unique {schema : Schema} {ids : List TypeId} {shapes others : List Shape}
    (h : List.Forall₂ (HasShape schema) ids shapes)
    (h' : List.Forall₂ (HasShape schema) ids others) : shapes = others := by
  induction h generalizing others with
  | nil =>
    cases h'
    rfl
  | cons first _ ih =>
    cases h' with
    | cons first' rest' => rw [hasShape_unique first _ first', ih rest']

/-- A root struct has one shape at most. -/
theorem rootShape_unique {schema : Schema} {root : String} {shape other : Shape}
    (h : schema.RootShape root shape) (h' : schema.RootShape root other) : shape = other := by
  obtain ⟨fields, shapes, declared, inner, rfl⟩ := h
  obtain ⟨fields', shapes', declared', inner', rfl⟩ := h'
  obtain rfl := Option.some.inj (declared.symm.trans declared')
  rw [forall₂_hasShape_unique inner inner']

end PackedLayout
