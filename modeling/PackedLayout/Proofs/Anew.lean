import PackedLayout.Proofs.Needs
import PackedLayout.Proofs.Transparency

/-!
# Structs made anew

A struct can be found without an engine at all: its template is made anew for every use, and the
cache is left alone. What ends well with an engine ends well so, with the same templates.

- `anew`: a struct that is made anew;
- `layOutStruct_anew`: its template is what its fields give, when the structs that they refer to
  are made anew as well;
- `layOutType_anew`: types that are laid out with such structs are laid out alike in every engine;
- `agree_anew_template`, `agree_template_anew`: an engine that keeps its templates finds the same.
-/

namespace PackedLayout

open Relation

/-- The template of a struct, made anew with no struct underway. -/
def anew (setting : Setting) : StructLayout := fun name span cache =>
  ((freshTemplate setting setting.schema.declarations.length name span .empty).1, cache)

variable {setting : Setting} {depth : Nat} {name : String} {trail : List String}
  {fields : List Field} {declared span : Span} {cache : Cache} {t : Template}

theorem anew_eq_ok :
    (anew setting name span cache).1 = .ok t ↔ t.Fresh setting ∧ t.name = name := by
  constructor
  · intro made
    obtain ⟨fresh, same, _⟩ := fresh_of_run made
    exact ⟨fresh, same⟩
  · rintro ⟨fresh, rfl⟩
    exact fresh span

/-- Where a struct may be laid out, `name` alone underway. -/
theorem Trail.alone (isStruct : setting.schema.IsStruct name) :
    ∃ k, setting.schema.declarations.length = k + 1 ∧ Trail setting.schema k [name] := by
  have start := trail_nil setting.schema
  obtain ⟨k, length⟩ := Nat.exists_eq_add_of_lt (start.depth_pos List.not_mem_nil isStruct)
  rw [Nat.zero_add] at length
  rw [length] at start
  exact ⟨k, length, start.enter List.not_mem_nil isStruct⟩

theorem leadsTo_single {other : String} (refers : Refers setting.schema name other) :
    LeadsTo setting.schema [name] other :=
  LeadsTo.enter nofun refers

/-- What a struct is made of, with the structs that it refers to made anew, is its template. -/
theorem layOutStruct_anew (known : setting.schema.structFields? name = some fields)
    (body : ∀ span (c : Cache), name ∉ c.underway →
      structBody setting name span c = (.ok (fields, declared), c)) :
    (layOutStruct setting (anew setting) name fields declared cache).1 = .ok t ↔
      t.Fresh setting ∧ t.name = name := by
  obtain ⟨k, length, room⟩ := Trail.alone ⟨fields, known⟩
  have made (span : Span) : (freshTemplate setting setting.schema.declarations.length name span
      .empty).1 = (layOutStruct setting (freshTemplate setting k) name fields declared
        (Cache.empty.enter name)).1 := by
    rw [length, freshTemplate_of_body (body span .empty List.not_mem_nil)]
    rfl
  constructor
  · intro laid
    -- every struct that is asked for is found, so all of them are acyclic
    have finds (other : String) (span : Span) : Keeps (fun _ => True) (fun _ => True)
        (fun _ => Acyclic setting.schema other) (anew setting other span) := by
      refine fun c _ => ⟨trivial, ?_⟩
      cases found : (anew setting other span c).1 with
      | error e => trivial
      | ok t => exact (fresh_of_run found).2.2
    have asks := keeps_layOutStruct_refers known declared finds
    obtain ⟨same, inner⟩ := (asks cache trivial).2.of_ok laid
    refine ⟨fun span => ?_, same⟩
    rw [same, made]
    have alike (other : String) (refers : Refers setting.schema name other) (span : Span) :
        Agrees (fun _ c' => c'.underway = [name]) (fun _ => True) (anew setting other span)
          (freshTemplate setting k other span) := by
      intro c c' here
      cases found : (anew setting other span c).1 with
      | error e => exact .inl ⟨e, found, trivial⟩
      | ok t =>
        obtain ⟨fresh, rfl⟩ := anew_eq_ok.mp found
        refine .inr ⟨?_, ?_, fun _ _ => trivial⟩
        · exact (fresh.run room (leadsTo_single refers) here span).trans found.symm
        · exact (keeps_freshTemplate setting k t.name span [name] c' here).1
    exact ((agree_layOutStruct known declared alike).alike rfl).ok laid |>.1
  · rintro ⟨fresh, rfl⟩
    have laid := (made .dummy).symm.trans (fresh .dummy)
    have alike (other : String) (_ : Refers setting.schema t.name other) (span : Span) :
        Agrees (fun _ _ => True) (fun _ => True) (freshTemplate setting k other span)
          (anew setting other span) := by
      intro c c' _
      cases found : (freshTemplate setting k other span c).1 with
      | error e => exact .inl ⟨e, found, trivial⟩
      | ok t =>
        obtain ⟨fresh, same, _⟩ := fresh_of_run found
        refine .inr ⟨(anew_eq_ok.mpr ⟨fresh, same⟩).trans found.symm, trivial, fun _ _ => trivial⟩
    exact ((agree_layOutStruct known declared alike).alike trivial).ok laid |>.1

theorem finds_anew (setting : Setting) : Finds setting.schema setting.width (anew setting) :=
  fun name span _ sound => ⟨sound, (finds_freshTemplate setting
    setting.schema.declarations.length name span .empty nofun).2⟩

/-! ## Without an engine -/

/-- A run that comes to the same in every engine. -/
def Steady {α : Type} (act : EngineM α) : Prop :=
  Agrees (fun _ _ => True) (fun _ => False) act act

theorem Steady.run_eq {α : Type} {act : EngineM α} (steady : Steady act) (cache cache' : Cache) :
    (act cache').1 = (act cache).1 := by
  obtain ⟨_, _, absurd⟩ | ⟨same, _⟩ := steady cache cache' trivial
  · exact absurd.elim
  · exact same

/-- Types are laid out alike in every engine if their structs are made anew. -/
theorem layOutType_anew (depth : Nat) (id : TypeId) (draft : Draft) :
    Steady (layOutType setting (anew setting) depth id draft) :=
  agree_layOutType depth draft fun _ _ _ _ _ _ _ => .inr ⟨rfl, trivial, fun _ _ => trivial⟩

theorem layOutFields_anew (fields : List Field) (draft : Draft) :
    Steady (layOutFields (layOutNode setting (anew setting)) fields draft) :=
  agree_layOutFields fields draft fun field _ => layOutType_anew setting.maxDepth field.type

/-! ## Beside an engine -/

/-- An engine with a certified cache and some structs underway, beside any other. -/
def Certifies (setting : Setting) (trail : List String) (c _c' : Cache) : Prop :=
  c.Certified setting ∧ c.underway = trail

theorem agree_template_anew (span : Span) (room : Trail setting.schema depth trail)
    (leads : LeadsTo setting.schema trail name) :
    Agrees (Certifies setting trail) (fun _ => True) (template setting depth name span)
      (anew setting name span) := by
  rintro c c' ⟨certified, rfl⟩
  obtain ⟨same, after, underway, _⟩ := template_certified certified span room leads
  cases found : (template setting depth name span c).1 with
  | error e => exact .inl ⟨e, found, trivial⟩
  | ok t =>
    obtain ⟨fresh, name_eq, _⟩ := fresh_of_run (same.symm.trans found)
    exact .inr ⟨(anew_eq_ok.mpr ⟨fresh, name_eq⟩).trans found.symm, ⟨after, underway⟩,
      fun _ _ => trivial⟩

theorem agree_anew_template (span : Span) (room : Trail setting.schema depth trail)
    (leads : LeadsTo setting.schema trail name) :
    Agrees (fun c c' => Certifies setting trail c' c) (fun _ => True) (anew setting name span)
      (template setting depth name span) := by
  rintro c c' ⟨certified, rfl⟩
  obtain ⟨same, after, underway, _⟩ := template_certified certified span room leads
  cases found : (anew setting name span c).1 with
  | error e => exact .inl ⟨e, found, trivial⟩
  | ok t =>
    obtain ⟨fresh, rfl⟩ := anew_eq_ok.mp found
    refine .inr ⟨?_, ⟨after, underway⟩, fun _ _ => trivial⟩
    have here : (⟨[], c'.underway⟩ : Cache).underway = c'.underway := rfl
    rw [same, found]
    exact fresh.run room leads here span

end PackedLayout
