import Mathlib.Data.List.Perm.Subperm
import PackedLayout.Proofs.References

/-!
# What an engine keeps

A struct is laid out with other structs underway, and an engine keeps its template for wherever the
struct is used next. There it would be the same if it were made anew:

- `freshTemplate`: a template that is made anew, with the structs that it refers to;
- `keeps_freshTemplate`: it is made only if the struct refers to none that is underway, and reaches
  no cycle;
- `agree_freshTemplate`: then it is the same with any structs underway that it does not refer to.
-/

namespace PackedLayout

open Relation

/-- The template of a struct, made anew for every use, with at most `depth` more structs
underway. -/
def freshTemplate (setting : Setting) : Nat → StructLayout
  | depth, name, span => do
    let (fields, declared) ← structBody setting name span
    match depth with
    | 0 => throw ⟨.recursiveType name, span⟩
    | depth + 1 =>
      whileUnderway name (layOutStruct setting (freshTemplate setting depth) name fields declared)

/-- No struct that is reached from this one refers back to itself. -/
def Acyclic (schema : Schema) (name : String) : Prop :=
  ∀ other, ReflTransGen (Refers schema) name other → ¬TransGen (Refers schema) other other

/-- Structs that may be underway together, with `depth` more. -/
structure Trail (schema : Schema) (depth : Nat) (names : List String) : Prop where
  nodup : names.Nodup
  structs : ∀ name ∈ names, schema.IsStruct name
  all : schema.declarations.length ≤ depth + names.length

variable {schema : Schema} {setting : Setting} {depth : Nat} {name : String} {trail : List String}
  {fields : List Field} {declared span : Span} {cache : Cache} {t : Template}

theorem Acyclic.refers {other : String} (h : Acyclic schema name)
    (refers : Refers schema name other) : Acyclic schema other :=
  fun _ reached => h _ (reached.head refers)

theorem Schema.IsStruct.mem_names (h : schema.IsStruct name) : name ∈ schema.names := by
  obtain ⟨fields, known⟩ := h
  obtain ⟨key, declared, declaration⟩ := Schema.structFields?_eq_some.mp known
  have same : key = name := by simpa using List.find?_some declaration
  rw [← same]
  exact List.mem_map_of_mem (List.mem_of_find?_eq_some declaration)

/-- When a struct is not underway yet, it may be. -/
theorem Trail.depth_pos (h : Trail schema depth trail) (new : name ∉ trail)
    (isStruct : schema.IsStruct name) : 0 < depth := by
  have subset : name :: trail ⊆ schema.names := by
    intro other member
    obtain rfl | earlier := List.mem_cons.mp member
    · exact isStruct.mem_names
    · exact (h.structs other earlier).mem_names
  have nodup : (name :: trail).Nodup := List.nodup_cons.mpr ⟨new, h.nodup⟩
  have le := (List.subperm_of_subset nodup subset).length_le
  have all := h.all
  simp only [List.length_cons, Schema.names, List.length_map] at le
  omega

theorem Trail.enter (h : Trail schema (depth + 1) trail) (new : name ∉ trail)
    (isStruct : schema.IsStruct name) : Trail schema depth (name :: trail) where
  nodup := List.nodup_cons.mpr ⟨new, h.nodup⟩
  structs := by
    intro other member
    obtain rfl | earlier := List.mem_cons.mp member
    · exact isStruct
    · exact h.structs other earlier
  all := by
    have all := h.all
    simp only [List.length_cons]
    omega

theorem trail_nil (schema : Schema) : Trail schema schema.declarations.length [] where
  nodup := List.nodup_nil
  structs := nofun
  all := Nat.le_refl _

/-! ## Steps of an engine -/

section Steps

variable {α β : Type} {act : EngineM α} {after : Cache}

theorem bind_of_ok {a : α} {next : α → EngineM β} (h : act cache = (.ok a, after)) :
    (act >>= next) cache = next a after := by
  show ExceptT.bindCont next (act cache).1 (act cache).2 = _
  rw [h]
  rfl

theorem bind_of_error {e : LayoutError} {next : α → EngineM β}
    (h : act cache = (.error e, after)) : (act >>= next) cache = (.error e, after) := by
  show ExceptT.bindCont next (act cache).1 (act cache).2 = _
  rw [h]
  rfl

/-- A name that is no struct fails anywhere, and a struct only while it is underway. -/
theorem structBody_cases (setting : Setting) (name : String) :
    (∀ span, ∃ e, ∀ cache, structBody setting name span cache = (.error e, cache)) ∨
      ∃ fields declared, setting.schema.structFields? name = some fields ∧
        ∀ span (cache : Cache), structBody setting name span cache =
          (if name ∈ cache.underway then .error ⟨.recursiveType name, span⟩
            else .ok (fields, declared), cache) := by
  cases declaration : setting.schema.declaration? name with
  | none =>
    simp only [structBody, declaration]
    exact .inl fun span => ⟨_, fun cache => rfl⟩
  | some entry =>
    obtain ⟨key, kind, declared⟩ := entry
    cases kind with
    | enum repr variants =>
      simp only [structBody, declaration]
      exact .inl fun span => ⟨_, fun cache => rfl⟩
    | struct fields =>
      refine .inr ⟨fields, declared, Schema.structFields?_eq_some.mpr ⟨_, _, declaration⟩, ?_⟩
      intro span cache
      simp only [structBody, declaration]
      have read : (get : EngineM Cache) cache = (.ok cache, cache) := rfl
      rw [bind_of_ok read]
      by_cases underway : name ∈ cache.underway <;> simp [underway] <;> rfl

theorem template_of_found (found : cache.template? name = some t) :
    template setting depth name span cache = (.ok t, cache) := by
  unfold template
  have read : (get : EngineM Cache) cache = (.ok cache, cache) := rfl
  rw [bind_of_ok read, found]
  rfl

/-- A struct that is not kept is made anew, and then it is kept. -/
theorem template_of_body (missing : cache.template? name = none)
    (body : structBody setting name span cache = (.ok (fields, declared), cache)) :
    template setting (depth + 1) name span cache =
      (do
        let t ← whileUnderway name
          (layOutStruct setting (template setting depth) name fields declared)
        modify (Cache.insert t)
        return t : EngineM Template) cache := by
  conv_lhs => unfold template
  have read : (get : EngineM Cache) cache = (.ok cache, cache) := rfl
  rw [bind_of_ok read, missing]
  exact bind_of_ok body

theorem template_of_blocked {e : LayoutError} (missing : cache.template? name = none)
    (blocked : structBody setting name span cache = (.error e, cache)) :
    template setting depth name span cache = (.error e, cache) := by
  unfold template
  have read : (get : EngineM Cache) cache = (.ok cache, cache) := rfl
  rw [bind_of_ok read, missing]
  exact bind_of_error blocked

theorem freshTemplate_of_blocked {e : LayoutError}
    (blocked : structBody setting name span cache = (.error e, cache)) :
    freshTemplate setting depth name span cache = (.error e, cache) := by
  unfold freshTemplate
  exact bind_of_error blocked

theorem freshTemplate_of_body
    (body : structBody setting name span cache = (.ok (fields, declared), cache)) :
    freshTemplate setting (depth + 1) name span cache = whileUnderway name
      (layOutStruct setting (freshTemplate setting depth) name fields declared) cache := by
  conv_lhs => unfold freshTemplate
  rw [bind_of_ok body]

/-- Nothing is made anew at once but for a struct that is not underway. -/
theorem freshTemplate_cases (setting : Setting) (depth : Nat) (name : String) (span : Span)
    (cache : Cache) :
    (∃ e, freshTemplate setting depth name span cache = (.error e, cache)) ∨
      0 < depth ∧ ∃ fields declared, setting.schema.structFields? name = some fields ∧
        name ∉ cache.underway ∧ ∀ span (c : Cache), name ∉ c.underway →
          structBody setting name span c = (.ok (fields, declared), c) := by
  obtain blocked | ⟨fields, declared, known, body⟩ := structBody_cases setting name
  · obtain ⟨e, failed⟩ := blocked span
    exact .inl ⟨e, freshTemplate_of_blocked (failed cache)⟩
  by_cases underway : name ∈ cache.underway
  · exact .inl ⟨_, freshTemplate_of_blocked (by rw [body, if_pos underway])⟩
  have free : ∀ span (c : Cache), name ∉ c.underway →
      structBody setting name span c = (.ok (fields, declared), c) := by
    intro span c new
    rw [body, if_neg new]
  cases depth with
  | zero =>
    refine .inl ⟨⟨.recursiveType name, span⟩, ?_⟩
    unfold freshTemplate
    exact bind_of_ok (free span cache underway)
  | succ k => exact .inr ⟨k.succ_pos, fields, declared, known, underway, free⟩

end Steps

/-! ## Templates made anew -/

/-- A struct that is made anew refers to no struct that is underway, and reaches no cycle. -/
theorem keeps_freshTemplate (setting : Setting) (depth : Nat) (name : String) (span : Span)
    (trail : List String) :
    Keeps (fun cache => cache.underway = trail) (fun _ => True)
      (fun t => t.name = name ∧ Acyclic setting.schema name ∧
        ∀ other, ReflTransGen (Refers setting.schema) name other → other ∉ trail)
      (freshTemplate setting depth name span) := by
  induction depth generalizing name span trail with
  | zero =>
    intro cache here
    obtain ⟨e, failed⟩ | ⟨pos, _⟩ := freshTemplate_cases setting 0 name span cache
    · rw [failed]
      exact ⟨here, trivial⟩
    · contradiction
  | succ depth ih =>
    intro cache here
    obtain ⟨e, failed⟩ | ⟨_, fields, declared, known, new, body⟩ :=
      freshTemplate_cases setting (depth + 1) name span cache
    · rw [failed]
      exact ⟨here, trivial⟩
    rw [freshTemplate_of_body (body span cache new)]
    have inner := keeps_layOutStruct_refers known declared fun other span =>
      (ih other span (name :: trail)).mono fun _ found => found.2
    have around := inner.whileUnderway name (fun _ (h : _ = trail) => congrArg (name :: ·) h)
      (fun _ h => congrArg List.tail h)
    refine (around.mono fun t ⟨same, found⟩ => ⟨same, ?_, ?_⟩) cache here
    · intro other reached
      obtain rfl | ⟨next, refers, reached⟩ := reached.cases_head
      · intro cycle
        obtain ⟨next, refers, reached⟩ := TransGen.head'_iff.mp cycle
        exact (found next refers).2 _ reached List.mem_cons_self
      · exact (found next refers).1 other reached
    · intro other reached member
      obtain rfl | ⟨next, refers, reached⟩ := reached.cases_head
      · exact new (here ▸ member)
      · exact (found next refers).2 other reached (List.mem_cons_of_mem _ member)

/-- The structs underway in two engines. -/
structure Trails (trail trail' : List String) (c c' : Cache) : Prop where
  here : c.underway = trail
  there : c'.underway = trail'

theorem Trails.enter {trail' : List String} {c c' : Cache} (h : Trails trail trail' c c')
    (name : String) : Trails (name :: trail) (name :: trail') (c.enter name) (c'.enter name) :=
  ⟨congrArg (name :: ·) h.here, congrArg (name :: ·) h.there⟩

theorem Trails.leave {trail' : List String} {c c' : Cache}
    (h : Trails (name :: trail) (name :: trail') c c') : Trails trail trail' c.leave c'.leave :=
  ⟨congrArg List.tail h.here, congrArg List.tail h.there⟩

/-- A struct that is made anew is the same wherever it is made, as long as it refers to no struct
that is underway there. -/
theorem agree_freshTemplate {depth' : Nat} {trail' : List String} (span' : Span)
    (acyclic : Acyclic setting.schema name)
    (apart : ∀ other, ReflTransGen (Refers setting.schema) name other → other ∉ trail')
    (room : Trail setting.schema depth' trail') :
    Agrees (Trails trail trail') (fun _ => True) (freshTemplate setting depth name span)
      (freshTemplate setting depth' name span') := by
  induction depth generalizing name span span' trail depth' trail' with
  | zero =>
    intro c c' _
    obtain ⟨e, failed⟩ | ⟨pos, _⟩ := freshTemplate_cases setting 0 name span c
    · exact .inl ⟨e, congrArg Prod.fst failed, trivial⟩
    · contradiction
  | succ depth ih =>
    intro c c' ⟨here, there⟩
    obtain ⟨e, failed⟩ | ⟨_, fields, declared, known, new, body⟩ :=
      freshTemplate_cases setting (depth + 1) name span c
    · exact .inl ⟨e, congrArg Prod.fst failed, trivial⟩
    have new' : name ∉ trail' := apart name .refl
    have isStruct : setting.schema.IsStruct name := ⟨fields, known⟩
    obtain ⟨k, rfl⟩ := Nat.exists_eq_add_of_lt (room.depth_pos new' isStruct)
    rw [Nat.zero_add] at room ⊢
    rw [freshTemplate_of_body (body span c new),
      freshTemplate_of_body (body span' c' (there ▸ new'))]
    have alike (other : String) (refers : Refers setting.schema name other) (span : Span) :
        Agrees (Trails (name :: trail) (name :: trail')) (fun _ => True)
          (freshTemplate setting depth other span) (freshTemplate setting k other span) := by
      apply ih span (acyclic.refers refers) _ (room.enter new' isStruct)
      intro reached steps member
      obtain rfl | earlier := List.mem_cons.mp member
      · exact acyclic _ .refl (TransGen.head' refers steps)
      · exact apart reached (steps.head refers) earlier
    have around : Agrees (Trails trail trail') (fun _ => True)
        (whileUnderway name
          (layOutStruct setting (freshTemplate setting depth) name fields declared))
        (whileUnderway name
          (layOutStruct setting (freshTemplate setting k) name fields declared)) :=
      (agree_layOutStruct known declared alike).whileUnderway name (fun _ _ h => h.enter name)
        fun _ _ h => h.leave
    exact around c c' ⟨here, there⟩

end PackedLayout
