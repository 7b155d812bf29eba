import PackedLayout.Proofs.Needs
import PackedLayout.Proofs.Transparency

/-!
# Well-formed schemas

A root struct is well-formed when it has a fixed layout, but for sizes: every type that it leads to
is formed, no struct contains itself, and there are not too many slots.

- `Uses`, `Schema.TypeFormed`: the types that a type leads to, and that all of them are formed;
- `Schema.WellFormed`: a root struct that has a layout, said without going through it;
- `exists_hasShape`, `exists_rootShape`: then the types and the root have shapes, whose leaves are
  the slots;
- `Shape.leafCount`, `HasShape.size_pos`: how many leaves there are, and that each takes up space.
-/

namespace PackedLayout

open Relation

/-- A type is inside of another, or a field of the struct that it names. -/
inductive Uses (schema : Schema) (id : TypeId) : TypeId → Prop
  | inner {part : TypeId} {form : TypeForm} {span : Span}
    (node : schema.type? id = some ⟨form, span⟩) (member : part ∈ form.inner) : Uses schema id part
  | field {name : String} {fields : List Field} {field : Field} {span : Span}
    (node : schema.type? id = some ⟨.named name, span⟩)
    (declared : schema.structFields? name = some fields) (member : field ∈ fields) :
    Uses schema id field.type

/-- The type is there, and its node is formed. -/
def Schema.NodeFormed (schema : Schema) (id : TypeId) : Prop :=
  ∃ form span, schema.type? id = some ⟨form, span⟩ ∧ form.Formed schema

/-- Every type that this one leads to is formed. -/
def Schema.TypeFormed (schema : Schema) (id : TypeId) : Prop :=
  ∀ part, ReflTransGen (Uses schema) id part → schema.NodeFormed part

/-- Some leaf has a size. -/
def Shape.TakesSpace (shape : Shape) : Prop := ∃ part ∈ shape.parts, 0 < part.size

/-- The type is the element of a dynamic array that is a field of the struct. -/
def Schema.DynamicElement (schema : Schema) (root : String) (element : TypeId) : Prop :=
  ∃ fields field span, schema.structFields? root = some fields ∧ field ∈ fields ∧
    schema.type? field.type = some ⟨.array element .dynamic, span⟩

/-- The root is a struct, and what is laid out for its fields only leads to types that are formed,
among them no string and no dynamic array. No struct that it leads to contains itself. There are not
too many slots in its fixed part, nor in an element of a dynamic array, and such an element takes up
space. -/
structure Schema.WellFormed (schema : Schema) (root : String) : Prop where
  isStruct : schema.IsStruct root
  types : ∀ fields, schema.structFields? root = some fields →
    ∀ field ∈ fields, schema.FieldAccepted schema.TypeFormed field
  acyclic : Acyclic schema root
  slots : ∀ shape, schema.RootShape root shape → shape.parts.length ≤ maxSlots
  elements : ∀ element, schema.DynamicElement root element → ∀ shape,
    HasShape schema element shape → shape.TakesSpace ∧ shape.parts.length ≤ maxSlots

variable {schema : Schema} {id : TypeId} {form : TypeForm} {span : Span} {name : String}

namespace Schema.TypeFormed

theorem node (h : schema.TypeFormed id) (known : schema.type? id = some ⟨form, span⟩) :
    form.Formed schema := by
  obtain ⟨_, _, again, formed⟩ := h id .refl
  cases known.symm.trans again
  exact formed

theorem uses {part : TypeId} (h : schema.TypeFormed id) (uses : Uses schema id part) :
    schema.TypeFormed part :=
  fun other leads => h other (leads.head uses)

theorem inner {part : TypeId} (h : schema.TypeFormed id)
    (known : schema.type? id = some ⟨form, span⟩) (member : part ∈ form.inner) :
    schema.TypeFormed part :=
  h.uses (.inner known member)

/-- A formed type is laid out as it is, and is no string. -/
theorem plain {field : Field} (h : schema.TypeFormed field.type) :
    schema.laidOut field = field.type ∧ schema.isTrailing field = false := by
  obtain ⟨form, span, known, formed⟩ := h _ .refl
  have notDynamic (element : TypeId) (span : Span) :
      schema.type? field.type ≠ some ⟨.array element .dynamic, span⟩ := by
    intro again
    cases known.symm.trans again
    exact formed
  refine ⟨Schema.laidOut_eq_type notDynamic,
    Schema.isTrailing_eq_false.mpr ⟨fun span again => ?_, notDynamic⟩⟩
  cases known.symm.trans again
  exact formed

end Schema.TypeFormed

/-! ## Shapes -/

/-- Every struct that the type mentions contains no struct that contains itself, and is led to by
the structs in `trail`. -/
def Schema.Grounded (schema : Schema) (trail : List String) (id : TypeId) : Prop :=
  ∀ name, Mentions schema id name → schema.IsStruct name →
    Acyclic schema name ∧ LeadsTo schema trail name

/-- The types of the fields of a struct, when it is entered. -/
theorem Schema.Grounded.enter {trail : List String} {fields : List Field} {field : Field}
    (acyclic : Acyclic schema name) (leads : LeadsTo schema trail name)
    (declared : schema.structFields? name = some fields) (member : field ∈ fields) :
    schema.Grounded (name :: trail) (schema.laidOut field) := by
  intro other mentions isStruct
  have refers : Refers schema name other := ⟨fields, field, declared, member, mentions, isStruct⟩
  exact ⟨acyclic.refers refers, leads.enter refers⟩

/-- Every type that is formed has a shape, when no struct that it mentions contains itself. -/
theorem exists_hasShape (ordered : schema.Ordered) {structs : Nat} {trail : List String}
    (room : Trail schema structs trail) (formed : schema.TypeFormed id)
    (grounded : schema.Grounded trail id) : ∃ shape, HasShape schema id shape := by
  induction structs using Nat.strongRecOn generalizing trail id with
  | ind structs structs_ih =>
    induction raw : id.raw using Nat.strongRecOn generalizing id with
    | ind raw ih =>
      obtain ⟨form, span, known, here⟩ := formed id .refl
      -- the types inside have shapes
      have inside (part : TypeId) (member : part ∈ form.inner) (earlier : part.raw < id.raw) :
          ∃ shape, HasShape schema part shape :=
        ih part.raw (raw ▸ earlier) (formed.inner known member)
          (fun name mentions => grounded name (.inner known member mentions)) rfl
      cases form with
      | primitive p => exact ⟨_, .primitive known⟩
      | fixedString length => exact ⟨_, .string known⟩
      | string => exact here.elim
      | array element length =>
        cases length with
        | dynamic => exact here.elim
        | fixed length =>
          obtain ⟨shape, inner⟩ := inside element List.mem_cons_self
            (ordered.earlier id _ span known element List.mem_cons_self)
          exact ⟨_, .array known inner⟩
      | variant arms encoding =>
        obtain ⟨rfl, _⟩ := here
        obtain ⟨shapes, inner⟩ := exists_forall₂ fun arm member =>
          inside arm member (ordered.earlier id _ span known arm member)
        exact ⟨_, .variant known inner⟩
      | record fields =>
        obtain ⟨shapes, inner⟩ := exists_forall₂ fun part member =>
          inside part member (ordered.earlier id _ span known part member)
        exact ⟨_, .record known inner⟩
      | named name =>
        obtain ⟨⟨key, kind, declared⟩, declaration, _⟩ := here
        cases kind with
        | enum repr variants => exact ⟨_, .enum known declaration⟩
        | struct fields =>
          have fields_eq : schema.structFields? name = some fields :=
            Schema.structFields?_eq_some.mpr ⟨key, declared, declaration⟩
          have isStruct : schema.IsStruct name := ⟨fields, fields_eq⟩
          obtain ⟨acyclic, leads⟩ := grounded name (.named known) isStruct
          have new : name ∉ trail := leads.apart acyclic name .refl
          obtain ⟨k, rfl⟩ := Nat.exists_eq_add_of_lt (room.depth_pos new isStruct)
          rw [Nat.zero_add] at room structs_ih
          have each : ∀ part ∈ fields.map (·.type), ∃ shape, HasShape schema part shape := by
            intro part member
            obtain ⟨field, listed, rfl⟩ := List.mem_map.mp member
            have formed := formed.uses (.field known fields_eq listed)
            refine structs_ih k k.lt_succ_self (room.enter new isStruct) formed ?_
            exact formed.plain.1 ▸ Schema.Grounded.enter acyclic leads fields_eq listed
          obtain ⟨shapes, inner⟩ := exists_forall₂ each
          exact ⟨_, .struct known declaration inner⟩

/-- The types that are laid out for a struct have shapes. -/
theorem Schema.WellFormed.exists_hasShape {root : String} (h : schema.WellFormed root)
    (ordered : schema.Ordered) {fields : List Field} {field : Field}
    (declared : schema.structFields? root = some fields) (member : field ∈ fields)
    (plain : ∀ span, schema.type? field.type ≠ some ⟨.string, span⟩) :
    ∃ shape, HasShape schema (schema.laidOut field) shape := by
  have isStruct : schema.IsStruct root := ⟨fields, declared⟩
  have room := (trail_nil schema)
  obtain ⟨k, depth⟩ := Nat.exists_eq_add_of_lt (room.depth_pos List.not_mem_nil isStruct)
  rw [Nat.zero_add] at depth
  rw [depth] at room
  exact PackedLayout.exists_hasShape ordered (room.enter List.not_mem_nil isStruct)
    (h.types fields declared field member plain)
    (Schema.Grounded.enter h.acyclic nofun declared member)

/-- The fixed part of a well-formed struct has a shape. -/
theorem Schema.WellFormed.exists_rootShape {root : String} (h : schema.WellFormed root)
    (ordered : schema.Ordered) : ∃ shape, schema.RootShape root shape := by
  obtain ⟨fields, declared⟩ := h.isStruct
  have each : ∀ part ∈ (fields.filter fun field => !schema.isTrailing field).map (·.type),
      ∃ shape, HasShape schema part shape := by
    intro part member
    obtain ⟨field, listed, rfl⟩ := List.mem_map.mp member
    obtain ⟨listed, fixed⟩ := List.mem_filter.mp listed
    obtain ⟨notString, notDynamic⟩ :=
      Schema.isTrailing_eq_false.mp (Bool.not_eq_true' _ |>.mp fixed)
    have shaped := h.exists_hasShape ordered declared listed notString
    rwa [Schema.laidOut_eq_type notDynamic] at shaped
  obtain ⟨shapes, inner⟩ := exists_forall₂ each
  exact ⟨_, fields, shapes, declared, inner, rfl⟩

namespace HasShape

variable {shape : Shape}

theorem exists_of_array {element : TypeId} {length : Nat} (h : HasShape schema id shape)
    (node : schema.type? id = some ⟨.array element (.fixed length), span⟩) :
    ∃ inner, HasShape schema element inner ∧ shape = .array length inner := by
  cases h <;> grind

theorem exists_of_variant {arms : List TypeId} {encoding : VariantEncoding}
    (h : HasShape schema id shape)
    (node : schema.type? id = some ⟨.variant arms encoding, span⟩) :
    ∃ shapes, List.Forall₂ (HasShape schema) arms shapes ∧ shape = .variant shapes := by
  cases h <;> grind

theorem exists_of_record {fields : List Field} (h : HasShape schema id shape)
    (node : schema.type? id = some ⟨.record fields, span⟩) :
    ∃ shapes, List.Forall₂ (HasShape schema) (fields.map (·.type)) shapes ∧
      shape = .record shapes := by
  cases h <;> grind

theorem exists_of_struct {key : String} {declared : Span} {fields : List Field}
    (h : HasShape schema id shape) (node : schema.type? id = some ⟨.named name, span⟩)
    (declaration : schema.declaration? name = some ⟨key, .struct fields, declared⟩) :
    ∃ shapes, List.Forall₂ (HasShape schema) (fields.map (·.type)) shapes ∧
      shape = .record shapes := by
  cases h <;> grind

end HasShape

/-! ## Leaves -/

namespace Shape

/-- The number of leaves of some shapes. -/
def leafCount : List Shape → Nat
  | [] => 0
  | shape :: rest => shape.parts.length + leafCount rest

theorem length_branches (step : Nat → Step) (index : Nat) (shapes : List Shape) :
    (branches step index shapes).length = leafCount shapes := by
  induction shapes generalizing index with
  | nil => rfl
  | cons shape rest ih =>
    rw [branches, List.length_append, List.length_map, ih, leafCount]

theorem length_parts_array (length : Nat) (shape : Shape) :
    (array length shape).parts.length = shape.parts.length := by
  rw [parts, List.length_map]

theorem length_parts_variant (shapes : List Shape) :
    (variant shapes).parts.length = 1 + leafCount shapes := by
  rw [parts, List.length_cons, length_branches, Nat.add_comm]

theorem length_parts_record (shapes : List Shape) :
    (record shapes).parts.length = leafCount shapes := by
  rw [parts, length_branches]

end Shape

/-- Every leaf of a formed type takes up space. -/
theorem HasShape.size_pos {shape : Shape} (h : HasShape schema id shape) :
    schema.TypeFormed id → ∀ part ∈ shape.parts, 0 < part.size := by
  have branches {step : Nat → Step} {ids : List TypeId} {shapes : List Shape}
      (all : (∀ id ∈ ids, schema.TypeFormed id) →
        ∀ shape ∈ shapes, ∀ part ∈ shape.parts, 0 < part.size)
      (formed : ∀ id ∈ ids, schema.TypeFormed id) :
      ∀ part ∈ Shape.branches step 0 shapes, 0 < part.size := by
    intro part member
    obtain ⟨shape, listed, inner, inside, same⟩ := Shape.mem_branches member
    exact same ▸ all formed shape listed inner inside
  refine HasShape.rec
    (motive_1 := fun id shape _ => schema.TypeFormed id → ∀ part ∈ shape.parts, 0 < part.size)
    (motive_2 := fun ids shapes _ => (∀ id ∈ ids, schema.TypeFormed id) →
      ∀ shape ∈ shapes, ∀ part ∈ shape.parts, 0 < part.size)
    ?primitive ?string ?array ?variant ?record ?enum ?struct ?nil ?cons h
  case primitive =>
    intro _ p _ _ _ part member
    rw [Shape.parts] at member
    exact List.mem_singleton.mp member ▸ p.size_pos
  case string =>
    intro _ length _ known formed part member
    rw [Shape.parts] at member
    exact List.mem_singleton.mp member ▸ formed.node known
  case array =>
    intro _ element length _ shape known _ ih formed part member
    rw [Shape.parts] at member
    obtain ⟨inner, inside, rfl⟩ := List.mem_map.mp member
    exact ih (formed.inner known List.mem_cons_self) inner inside
  case variant =>
    intro _ arms _ shapes known _ ih formed part member
    rw [Shape.parts] at member
    obtain rfl | inside := List.mem_cons.mp member
    · show 0 < tagSize shapes.length
      unfold tagSize
      split <;> decide
    · exact branches ih (fun arm listed => formed.inner known listed) part inside
  case record =>
    intro _ fields _ shapes known _ ih formed part member
    rw [Shape.parts] at member
    exact branches ih (fun id listed => formed.inner known listed) part member
  case enum =>
    intro _ _ _ _ _ repr _ _ _ _ part member
    rw [Shape.parts] at member
    exact List.mem_singleton.mp member ▸ repr.size_pos
  case struct =>
    intro _ name _ _ _ fields shapes known declaration _ ih formed part member
    rw [Shape.parts] at member
    have declared := Schema.structFields?_eq_some.mpr ⟨_, _, declaration⟩
    refine branches ih (fun id listed => ?_) part member
    obtain ⟨field, inside, rfl⟩ := List.mem_map.mp listed
    exact formed.uses (.field known declared inside)
  case nil =>
    intro _ _ absent
    exact absurd absent List.not_mem_nil
  case cons =>
    intro id shape ids shapes _ _ first rest formed other member
    obtain rfl | later := List.mem_cons.mp member
    · exact first (formed id List.mem_cons_self)
    · exact rest (fun id listed => formed id (List.mem_cons_of_mem _ listed)) other later

end PackedLayout
