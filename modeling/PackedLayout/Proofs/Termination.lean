import Mathlib.Logic.Function.Iterate
import PackedLayout.Proofs.Needs
import PackedLayout.Proofs.Transparency

/-!
# Where the recursion ends

Types and structs are gone through down to a depth that is given. When types are made of earlier
types, that depth is never reached: the recursion may be cut off there and be gone on with in any
other way, and nothing changes.

- `findStruct`: one level of the recursion over structs, as `layOutForm` is one of that over types;
- `iterate_layOutForm`: below a type there are no more levels than there are types of smaller rank,
  such as earlier ones;
- `agree_iterate_findStruct`: below a struct there are no more levels than there are structs that
  are not underway.
-/

namespace PackedLayout

/-- One level of finding a struct, where `deeper` finds the structs that it refers to. -/
def findStruct (setting : Setting) (deeper : StructLayout) : StructLayout := fun name span => do
  match (← get).template? name with
  | some t => return t
  | none =>
    let (fields, declared) ← structBody setting name span
    let t ← whileUnderway name (layOutStruct setting deeper name fields declared)
    modify (Cache.insert t)
    return t

theorem template_succ (setting : Setting) (depth : Nat) :
    template setting (depth + 1) = findStruct setting (template setting depth) := by
  funext name span
  conv_lhs => unfold template
  rfl

variable {setting : Setting} {struct deeper : StructLayout} {layOut layOut' : TypeLayout}

/-! ## Types -/

/-- Runs agree with nothing let pass just if they are one. -/
theorem agrees_eq_iff {α : Type} {act act' : EngineM α} :
    Agrees (· = ·) (fun _ => False) act act' ↔ act = act' := by
  constructor
  · intro h
    funext cache
    obtain ⟨_, _, absurd⟩ | ⟨same, after, _⟩ := h cache cache rfl
    · exact absurd.elim
    · exact Prod.ext same.symm after
  · rintro rfl c _ rfl
    exact .inr ⟨rfl, rfl, fun _ _ => trivial⟩

/-- One level of laying out a type depends on what becomes of the types inside. -/
theorem layOutForm_congr {id : TypeId}
    (inside : ∀ form span, setting.schema.type? id = some ⟨form, span⟩ →
      ∀ part ∈ form.inner, layOut part = layOut' part) :
    layOutForm setting struct layOut id = layOutForm setting struct layOut' id := by
  obtain ⟨run, step⟩ := setting.schema.exists_typeStep id
  funext draft
  rw [step.layOutForm_eq rfl, step.layOutForm_eq rfl]
  have alike {form : TypeForm} {span : Span} (node : setting.schema.type? id = some ⟨form, span⟩)
      (part : TypeId) (member : part ∈ form.inner) (draft : Draft) :
      Agrees (· = ·) (fun _ => False) (layOut part draft) (layOut' part draft) :=
    agrees_eq_iff.mpr (congrFun (inside form span node part member) draft)
  cases step with
  | refused | primitive | string | named => rfl
  | array node =>
    dsimp only
    unfold layOutArray
    rw [inside _ _ node _ List.mem_cons_self]
  | @variant arms span node =>
    have same (draft : Draft) : collectArms setting.width span layOut 0 [] arms draft =
        collectArms setting.width span layOut' 0 [] arms draft :=
      agrees_eq_iff.mp (agree_collectArms arms 0 [] draft (alike node))
    dsimp only
    unfold layOutVariant
    simp only [same]
  | @record fields span node =>
    exact agrees_eq_iff.mp (agree_layOutFields fields draft fun field member =>
      alike node field.type (List.mem_map_of_mem member))

/-- Nothing below the types of a smaller rank matters. -/
theorem iterate_layOutForm {rank : TypeId → Nat}
    (falls : ∀ id form span, setting.schema.type? id = some ⟨form, span⟩ →
      ∀ part ∈ form.inner, rank part < rank id) (layOut layOut' : TypeLayout)
    {n m : Nat} {id : TypeId} (deep : rank id < n) (deep' : rank id < m) :
    (layOutForm setting struct)^[n] layOut id = (layOutForm setting struct)^[m] layOut' id := by
  induction n generalizing m id with
  | zero => exact absurd deep (Nat.not_lt_zero _)
  | succ n ih =>
    obtain ⟨m, rfl⟩ := Nat.exists_eq_add_one_of_ne_zero (Nat.ne_zero_of_lt deep')
    rw [Function.iterate_succ_apply', Function.iterate_succ_apply']
    refine layOutForm_congr fun form span node part member => ?_
    have lower := falls id form span node part member
    exact ih (by omega) (by omega)

theorem layOutType_eq_iterate (setting : Setting) (struct : StructLayout) (depth : Nat) :
    layOutType setting struct depth =
      (layOutForm setting struct)^[depth] (layOutType setting struct 0) := by
  induction depth with
  | zero => rfl
  | succ depth ih => rw [layOutType_succ, Function.iterate_succ_apply', ih]

/-- A type is laid out as the recursion without a bound does it, however it is cut off. -/
theorem iterate_layOutForm_eq_layOutNode (ordered : setting.schema.Ordered) {id : TypeId}
    {node : TypeNode} {n : Nat} (known : setting.schema.type? id = some node) (deep : id.raw < n)
    (layOut : TypeLayout) :
    (layOutForm setting struct)^[n] layOut id = layOutNode setting struct id := by
  have inside : id.raw < setting.maxDepth := Setting.raw_lt_maxDepth known
  rw [layOutNode, layOutType_eq_iterate]
  refine iterate_layOutForm (fun id form span node part member => ?_) _ _ deep inside
  exact ordered.earlier id form span node part (TypeForm.mem_parts member)

/-- Laying out a type takes one level more, if the ranks of types are below the depth. -/
theorem layOutNode_eq_layOutForm {rank : TypeId → Nat}
    (falls : ∀ id form span, setting.schema.type? id = some ⟨form, span⟩ →
      ∀ part ∈ form.inner, rank part < rank id) {id : TypeId} (below : rank id < setting.maxDepth) :
    layOutNode setting struct id = layOutForm setting struct (layOutNode setting struct) id := by
  have once : (layOutForm setting struct)^[setting.maxDepth] (layOutType setting struct 0) id =
      (layOutForm setting struct)^[setting.maxDepth + 1] (layOutType setting struct 0) id :=
    iterate_layOutForm falls _ _ below (Nat.lt_succ_of_lt below)
  rw [Function.iterate_succ_apply', ← layOutType_eq_iterate] at once
  exact once

/-! ## Structs -/

/-- Two engines with the same cache. -/
def SameCache (trail : List String) (c c' : Cache) : Prop := c' = c ∧ c.underway = trail

theorem agree_structBody (name : String) (span : Span) (trail : List String) :
    Agree (SameCache trail) (fun _ => False)
      (fun body => setting.schema.structFields? name = some body.1 ∧ name ∉ trail)
      (structBody setting name span) (structBody setting name span) := by
  rintro _ c ⟨rfl, rfl⟩
  obtain unknown | ⟨fields, declared, known, body⟩ := structBody_cases setting name
  · obtain ⟨e, failed⟩ := unknown span
    rw [failed]
    exact .inr ⟨rfl, ⟨rfl, rfl⟩, nofun⟩
  · rw [body]
    refine .inr ⟨rfl, ⟨rfl, rfl⟩, fun found done => ?_⟩
    by_cases underway : name ∈ c.underway
    · rw [if_pos underway] at done
      contradiction
    · rw [if_neg underway] at done
      cases done
      exact ⟨known, underway⟩

/-- One level of finding a struct depends on what is found for the structs that it refers to. At
the last level every struct is underway. -/
theorem agree_findStruct {depth : Nat} {trail : List String} {name : String} (span : Span)
    (room : Trail setting.schema depth trail)
    (inside : ∀ k, depth = k + 1 → Trail setting.schema k (name :: trail) → ∀ other span,
      Agrees (SameCache (name :: trail)) (fun _ => False) (template setting k other span)
        (deeper other span)) :
    Agrees (SameCache trail) (fun _ => False) (template setting depth name span)
      (findStruct setting deeper name span) := by
  have read : Agree (SameCache trail) (fun _ => False) (fun _ => True)
      (get : EngineM Cache) get := by
    rintro c _ ⟨rfl, here⟩
    exact .inr ⟨rfl, ⟨rfl, here⟩, fun _ _ => trivial⟩
  unfold template findStruct
  refine read.bind fun cache _ => ?_
  cases cache.template? name with
  | some t => exact Agree.pure trivial
  | none =>
    refine (agree_structBody name span trail).bind ?_
    rintro ⟨fields, declared⟩ ⟨known, new⟩
    have isStruct : setting.schema.IsStruct name := ⟨fields, known⟩
    cases depth with
    | zero => exact absurd (room.depth_pos new isStruct) (Nat.lt_irrefl 0)
    | succ k =>
      have laid := agree_layOutStruct known declared fun other _ span =>
        inside k rfl (room.enter new isStruct) other span
      refine (laid.whileUnderway name ?enter ?leave).bind fun t _ =>
        (Agree.modify ?insert).bind fun _ _ => Agree.pure trivial
      case enter =>
        rintro c _ ⟨rfl, here⟩
        exact ⟨rfl, congrArg (name :: ·) here⟩
      case leave =>
        rintro c _ ⟨rfl, here⟩
        exact ⟨rfl, congrArg List.tail here⟩
      case insert =>
        rintro c _ ⟨rfl, here⟩
        exact ⟨rfl, here⟩

/-- A struct is found as the recursion without a bound does it, however it is cut off. -/
theorem agree_iterate_findStruct {depth n : Nat} {trail : List String} {name : String} (span : Span)
    (room : Trail setting.schema depth trail) (deep : depth < n) :
    Agrees (SameCache trail) (fun _ => False) (template setting depth name span)
      ((findStruct setting)^[n] deeper name span) := by
  induction n generalizing depth trail name span with
  | zero => exact absurd deep (Nat.not_lt_zero _)
  | succ n ih =>
    rw [Function.iterate_succ_apply']
    exact agree_findStruct span room fun k same further other span => ih span further (by omega)

end PackedLayout
