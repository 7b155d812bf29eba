import PackedLayout.Proofs.Caching

/-!
# An engine that was used before

What an engine lays out does not depend on what it laid out before. Its cache is certified: every
template that is kept is the one that is made anew, and none belongs to a struct that is underway.

- `agree_template`: with a certified cache, an engine finds what is made anew, and its cache stays
  certified and keeps what it had;
- `Engine.layOut_certified`: so after any root, whether it is laid out or fails;
- `layOut_after_roots`: after any roots, a root is laid out as by an engine of its own.
-/

namespace PackedLayout

open Relation

variable {schema : Schema} {setting : Setting} {depth : Nat} {name : String} {trail : List String}
  {fields : List Field} {declared span : Span} {cache c c' : Cache} {t : Template}

/-- The template that is made anew for the struct it is named after. -/
def Template.Fresh (setting : Setting) (t : Template) : Prop :=
  ∀ span, (freshTemplate setting setting.schema.declarations.length t.name span .empty).1 = .ok t

/-- Every struct that is underway leads to this one. -/
def LeadsTo (schema : Schema) (trail : List String) (name : String) : Prop :=
  ∀ other ∈ trail, TransGen (Refers schema) other name

theorem LeadsTo.enter {next : String} (h : LeadsTo schema trail name)
    (refers : Refers schema name next) : LeadsTo schema (name :: trail) next := by
  intro other member
  obtain rfl | earlier := List.mem_cons.mp member
  · exact .single refers
  · exact (h other earlier).tail refers

/-- A struct that reaches no cycle refers to no struct that leads to it. -/
theorem LeadsTo.apart (leads : LeadsTo schema trail name) (acyclic : Acyclic schema name) :
    ∀ other, ReflTransGen (Refers schema) name other → other ∉ trail :=
  fun other reached member => acyclic other reached ((leads other member).trans_left reached)

/-- A template that is made anew at some place is fresh. -/
theorem fresh_of_run (made : (freshTemplate setting depth name span cache).1 = .ok t) :
    t.Fresh setting ∧ t.name = name ∧ Acyclic setting.schema name := by
  obtain ⟨same, acyclic, _⟩ :=
    (keeps_freshTemplate setting depth name span cache.underway cache rfl).2.of_ok made
  refine ⟨fun other => ?_, same, acyclic⟩
  rw [same]
  exact ((agree_freshTemplate other acyclic (fun _ _ => List.not_mem_nil)
    (trail_nil setting.schema)).alike ⟨rfl, rfl⟩).ok made |>.1

theorem Template.Fresh.acyclic (fresh : t.Fresh setting) : Acyclic setting.schema t.name :=
  (fresh_of_run (fresh .dummy)).2.2

/-- A fresh template is made anew wherever the structs underway lead to its struct. -/
theorem Template.Fresh.run (fresh : t.Fresh setting) (room : Trail setting.schema depth trail)
    (leads : LeadsTo setting.schema trail t.name) (here : cache.underway = trail) (span : Span) :
    (freshTemplate setting depth t.name span cache).1 = .ok t :=
  ((agree_freshTemplate span fresh.acyclic (leads.apart fresh.acyclic) room).alike
    ⟨rfl, here⟩).ok (fresh span) |>.1

theorem Template.Fresh.unique {other : Template} (fresh : t.Fresh setting)
    (fresh' : other.Fresh setting) (same : t.name = other.name) : t = other := by
  have run := fresh .dummy
  rw [same, fresh' .dummy] at run
  exact (Except.ok.inj run).symm

/-! ## Certified caches -/

/-- Fresh templates, one for each struct, and none for a struct that is underway. -/
structure Cache.Certified (setting : Setting) (cache : Cache) : Prop where
  fresh : ∀ t ∈ cache.templates, t.Fresh setting
  nodup : (cache.templates.map (·.name)).Nodup
  apart : ∀ t ∈ cache.templates, t.name ∉ cache.underway

theorem Cache.certified_empty (setting : Setting) : Cache.empty.Certified setting where
  fresh := nofun
  nodup := List.nodup_nil
  apart := nofun

theorem Cache.template?_eq_some (found : cache.template? name = some t) :
    t ∈ cache.templates ∧ t.name = name :=
  ⟨List.mem_of_find?_eq_some found, by simpa using List.find?_some found⟩

theorem Cache.template?_eq_none :
    cache.template? name = none ↔ ∀ t ∈ cache.templates, t.name ≠ name := by
  simp [Cache.template?]

namespace Cache.Certified

theorem enter (h : cache.Certified setting) (missing : cache.template? name = none) :
    (cache.enter name).Certified setting where
  fresh := h.fresh
  nodup := h.nodup
  apart := by
    intro t listed member
    obtain here | earlier := List.mem_cons.mp member
    · exact Cache.template?_eq_none.mp missing t listed here
    · exact h.apart t listed earlier

theorem leave (h : cache.Certified setting) : cache.leave.Certified setting where
  fresh := h.fresh
  nodup := h.nodup
  apart := fun t listed member => h.apart t listed (List.mem_of_mem_tail member)

theorem insert (h : cache.Certified setting) (fresh : t.Fresh setting)
    (missing : cache.template? t.name = none) (new : t.name ∉ cache.underway) :
    (Cache.insert t cache).Certified setting where
  fresh := by
    intro other listed
    obtain rfl | earlier := List.mem_cons.mp listed
    · exact fresh
    · exact h.fresh other earlier
  nodup := by
    refine List.nodup_cons.mpr ⟨fun listed => ?_, h.nodup⟩
    obtain ⟨other, member, same⟩ := List.mem_map.mp listed
    exact Cache.template?_eq_none.mp missing other member same
  apart := by
    intro other listed
    obtain rfl | earlier := List.mem_cons.mp listed
    · exact new
    · exact h.apart other earlier

/-- A template that was kept is still found when more are kept. -/
theorem template?_of_suffix {old : Cache} (h : cache.Certified setting)
    (more : old.templates <:+ cache.templates) (found : old.template? name = some t) :
    cache.template? name = some t := by
  obtain ⟨member, same⟩ := Cache.template?_eq_some found
  cases again : cache.template? name with
  | none => exact absurd same (Cache.template?_eq_none.mp again t (more.subset member))
  | some other =>
    obtain ⟨member', same'⟩ := Cache.template?_eq_some again
    rw [(h.fresh t (more.subset member)).unique (h.fresh other member') (same.trans same'.symm)]

end Cache.Certified

/-! ## An engine with a certified cache -/

/-- An engine that keeps its templates, among them those in `start`, beside one that keeps none,
with the same structs underway. -/
structure Tracks (setting : Setting) (start : List Template) (trail : List String)
    (c c' : Cache) : Prop where
  certified : c.Certified setting
  kept : start <:+ c.templates
  trails : Trails trail trail c c'

namespace Tracks

variable {start : List Template}

theorem enter (h : Tracks setting start trail c c') (missing : c.template? name = none) :
    Tracks setting start (name :: trail) (c.enter name) (c'.enter name) :=
  ⟨h.certified.enter missing, h.kept, h.trails.enter name⟩

theorem leave (h : Tracks setting start (name :: trail) c c') :
    Tracks setting start trail c.leave c'.leave ∧ c.leave.template? name = none := by
  refine ⟨⟨h.certified.leave, h.kept, h.trails.leave⟩, Cache.template?_eq_none.mpr ?_⟩
  rintro t listed rfl
  have member : t.name ∈ c.underway := h.trails.here ▸ List.mem_cons_self
  exact h.certified.apart t listed member

theorem insert (h : Tracks setting start trail c c') (fresh : t.Fresh setting)
    (missing : c.template? t.name = none) (new : t.name ∉ trail) :
    Tracks setting start trail (Cache.insert t c) c' :=
  ⟨h.certified.insert fresh missing (h.trails.here ▸ new), h.kept.trans (List.suffix_cons _ _),
    h.trails.here, h.trails.there⟩

end Tracks

/-- A struct that is not kept yet is laid out as it is made anew, and kept. -/
theorem meet_template_of_body {start : List Template}
    (known : setting.schema.structFields? name = some fields)
    (free : ∀ cache : Cache, cache.underway = trail →
      structBody setting name span cache = (.ok (fields, declared), cache))
    (inside : ∀ other, Refers setting.schema name other → ∀ span,
      Agrees (Tracks setting start (name :: trail)) (fun _ => False)
        (template setting depth other span) (freshTemplate setting depth other span))
    (new : name ∉ trail) (missing : c.template? name = none)
    (tracks : Tracks setting start trail c c') :
    Meet (Tracks setting start trail) (fun _ => False) (fun _ => True)
      (template setting (depth + 1) name span c)
      (freshTemplate setting (depth + 1) name span c') := by
  rw [template_of_body missing (free c tracks.trails.here)]
  have anew : freshTemplate setting (depth + 1) name span c' = _ :=
    freshTemplate_of_body (free c' tracks.trails.there)
  have around : Agrees (fun c c' => Tracks setting start trail c c' ∧ c.template? name = none)
      (fun _ => False)
      (whileUnderway name (layOutStruct setting (template setting depth) name fields declared))
      (whileUnderway name
        (layOutStruct setting (freshTemplate setting depth) name fields declared)) :=
    (agree_layOutStruct known declared inside).whileUnderway name
      (fun _ _ h => h.1.enter h.2) fun _ _ h => h.leave
  obtain ⟨_, _, absurd⟩ | ⟨same, ⟨tracks', missing⟩, _⟩ := around c c' ⟨tracks, missing⟩
  · exact absurd.elim
  rw [← anew] at same tracks'
  cases result : whileUnderway name
    (layOutStruct setting (template setting depth) name fields declared) c with
  | mk outcome after =>
  rw [result] at same tracks' missing
  cases outcome with
  | error e =>
    rw [bind_of_error result]
    exact .inr ⟨same, tracks', nofun⟩
  | ok t =>
    obtain ⟨fresh, rfl, _⟩ := fresh_of_run same
    rw [bind_of_ok result]
    exact .inr ⟨same, tracks'.insert fresh missing new, fun _ _ => trivial⟩

/-- An engine that keeps its templates finds what is made anew. -/
theorem agree_template {start : List Template} (span : Span)
    (room : Trail setting.schema depth trail) (leads : LeadsTo setting.schema trail name) :
    Agrees (Tracks setting start trail) (fun _ => False) (template setting depth name span)
      (freshTemplate setting depth name span) := by
  induction depth using Nat.strongRecOn generalizing name span trail with
  | ind depth ih =>
    intro c c' tracks
    -- a struct that may not be laid out fails in both engines
    have blocked {e : LayoutError} (missing : c.template? name = none)
        (body : ∀ cache : Cache, cache.underway = trail →
          structBody setting name span cache = (.error e, cache)) :
        Meet (Tracks setting start trail) (fun _ => False) (fun _ => True)
          (template setting depth name span c) (freshTemplate setting depth name span c') := by
      rw [template_of_blocked missing (body c tracks.trails.here),
        freshTemplate_of_blocked (body c' tracks.trails.there)]
      exact .inr ⟨rfl, tracks, nofun⟩
    cases found : c.template? name with
    | some t =>
      obtain ⟨member, rfl⟩ := Cache.template?_eq_some found
      have made := (tracks.certified.fresh t member).run room leads tracks.trails.there span
      have there := (keeps_freshTemplate setting depth t.name span trail c' tracks.trails.there).1
      rw [template_of_found found]
      exact .inr ⟨made, ⟨tracks.certified, tracks.kept, tracks.trails.here, there⟩,
        fun _ _ => trivial⟩
    | none =>
      obtain unknown | ⟨fields, declared, known, body⟩ := structBody_cases setting name
      · obtain ⟨e, failed⟩ := unknown span
        exact blocked found fun cache _ => failed cache
      by_cases underway : name ∈ trail
      · exact blocked found fun cache here => by rw [body, if_pos (here ▸ underway)]
      have isStruct : setting.schema.IsStruct name := ⟨fields, known⟩
      obtain ⟨k, rfl⟩ := Nat.exists_eq_add_of_lt (room.depth_pos underway isStruct)
      rw [Nat.zero_add] at room ih ⊢
      have free (cache : Cache) (here : cache.underway = trail) :
          structBody setting name span cache = (.ok (fields, declared), cache) := by
        rw [body, if_neg (here ▸ underway)]
      exact meet_template_of_body known free (fun other refers span =>
        ih k k.lt_succ_self span (room.enter underway isStruct) (leads.enter refers))
          underway found tracks

/-- A struct that is found with a certified cache, or fails there, is what is made anew, and what
was kept is kept. -/
theorem template_certified (certified : cache.Certified setting) (span : Span)
    (room : Trail setting.schema depth cache.underway)
    (leads : LeadsTo setting.schema cache.underway name) :
    (template setting depth name span cache).1 =
        (freshTemplate setting depth name span ⟨[], cache.underway⟩).1 ∧
      (template setting depth name span cache).2.Certified setting ∧
      (template setting depth name span cache).2.underway = cache.underway ∧
      cache.templates <:+ (template setting depth name span cache).2.templates := by
  have start : Tracks setting cache.templates cache.underway cache ⟨[], cache.underway⟩ :=
    ⟨certified, List.suffix_rfl, rfl, rfl⟩
  obtain ⟨_, _, absurd⟩ | ⟨same, tracks, _⟩ := agree_template span room leads _ _ start
  · exact absurd.elim
  · exact ⟨same.symm, tracks.certified, tracks.trails.here, tracks.kept⟩

/-! ## Roots -/

/-- Between two roots no struct is underway. -/
structure Engine.Certified (engine : Engine) : Prop where
  cache : engine.cache.Certified engine.setting
  idle : engine.cache.underway = []

/-- What becomes of a root is what becomes of its template. -/
theorem rootTemplate_eq (setting : Setting) (root : String) (cache : Cache) :
    let span := (setting.schema.declaration? root).elim .dummy (·.span)
    let r := template setting setting.schema.declarations.length root span cache
    Engine.rootTemplate setting root cache = (r.1.map fun t => (t, span), r.2) := by
  intro span r
  show (do return (← template setting setting.schema.declarations.length root span, span) :
    EngineM (Template × Span)) cache = _
  cases result : template setting setting.schema.declarations.length root span cache with
  | mk outcome after =>
  cases outcome with
  | error e => rw [bind_of_error result, show r = _ from result]; rfl
  | ok t => rw [bind_of_ok result, show r = _ from result]; rfl

/-- After a root, laid out or not, an engine is certified still and keeps what it had. What it made
of the root does not depend on what it had. -/
theorem Engine.layOut_certified {engine : Engine} (h : engine.Certified) (root : String) :
    (engine.layOut root).2.Certified ∧ (engine.layOut root).2.setting = engine.setting ∧
      engine.cache.templates <:+ (engine.layOut root).2.cache.templates ∧
      (engine.layOut root).1 = (Engine.layOut ⟨engine.setting, .empty⟩ root).1 := by
  obtain ⟨setting, cache⟩ := engine
  obtain ⟨certified, idle⟩ := h
  dsimp only at certified idle
  have room := trail_nil setting.schema
  rw [← idle] at room
  unfold Engine.layOut
  simp only [rootTemplate_eq]
  generalize (setting.schema.declaration? root).elim .dummy (·.span) = span
  have none : LeadsTo setting.schema [] root := nofun
  obtain ⟨same, certified, idle', more⟩ :=
    template_certified certified span room (idle ▸ none)
  have same' := (template_certified (Cache.certified_empty setting) span
    (trail_nil setting.schema) none).1
  refine ⟨⟨certified, idle'.trans idle⟩, trivial, more, ?_⟩
  rw [same, same', idle]
  rfl

/-- The template of a root is made anew for it. -/
theorem Engine.rootTemplate_fresh (setting : Setting) (root : String) :
    (Engine.rootTemplate setting root .empty).1 =
      let span := (setting.schema.declaration? root).elim .dummy (·.span)
      (freshTemplate setting setting.schema.declarations.length root span ⟨[], []⟩).1.map
        fun t => (t, span) := by
  obtain ⟨same, _⟩ := template_certified (Cache.certified_empty setting)
    ((setting.schema.declaration? root).elim .dummy (·.span)) (trail_nil setting.schema)
    (show LeadsTo setting.schema [] root from nofun)
  rw [rootTemplate_eq]
  exact congrArg (Except.map _) same

/-- A root is laid out from the template that is made anew for it. -/
theorem Engine.layOut_fresh (setting : Setting) (root : String) :
    (Engine.layOut ⟨setting, .empty⟩ root).1 =
      let span := (setting.schema.declaration? root).elim .dummy (·.span)
      (freshTemplate setting setting.schema.declarations.length root span ⟨[], []⟩).1.bind fun t =>
        (t.toLayout setting.width).mapError (Failure.locate span) := by
  show ((Engine.rootTemplate setting root .empty).1.bind fun found =>
    (found.1.toLayout setting.width).mapError (Failure.locate found.2)) = _
  rw [Engine.rootTemplate_fresh]
  dsimp only
  cases (freshTemplate setting setting.schema.declarations.length root _ ⟨[], []⟩).1 <;> rfl

/-- A root is laid out from its fresh template. -/
theorem Engine.layOut_eq_ok {root : String} {layout : Layout} :
    (Engine.layOut ⟨setting, .empty⟩ root).1 = .ok layout ↔
      ∃ t : Template, t.Fresh setting ∧ t.name = root ∧ t.toLayout setting.width = .ok layout := by
  have located (t : Template) (span : Span) :
      (t.toLayout setting.width).mapError (Failure.locate span) = .ok layout ↔
        t.toLayout setting.width = .ok layout := by
    cases t.toLayout setting.width with
    | error e => exact ⟨nofun, nofun⟩
    | ok made => constructor <;> exact fun h => congrArg _ (Except.ok.inj h)
  rw [Engine.layOut_fresh]
  refine bind_eq_ok.trans ⟨?_, ?_⟩
  · rintro ⟨t, made, done⟩
    obtain ⟨fresh, same, _⟩ := fresh_of_run made
    exact ⟨t, fresh, same, (located t _).mp done⟩
  · rintro ⟨t, fresh, rfl, done⟩
    exact ⟨t, fresh _, (located t _).mpr done⟩

/-- An engine after some roots, laid out or not. -/
def Engine.after (engine : Engine) (roots : List String) : Engine :=
  roots.foldl (fun engine root => (engine.layOut root).2) engine

theorem Engine.after_certified {engine : Engine} (h : engine.Certified) (roots : List String) :
    (engine.after roots).Certified ∧ (engine.after roots).setting = engine.setting := by
  induction roots generalizing engine with
  | nil => exact ⟨h, rfl⟩
  | cons root rest ih =>
    obtain ⟨certified, same, _⟩ := Engine.layOut_certified h root
    obtain ⟨certified, same'⟩ := ih certified
    exact ⟨certified, same'.trans same⟩

/-- What is laid out for a root does not depend on the roots before it: it is what an engine of its
own lays out, a layout or an error. Then no struct is underway any more, all templates that were
kept are kept, one for each struct, and each is what is made anew for its struct. No struct is kept
that reaches a cycle, and none that was not laid out at any place in the structs that lead to
it. -/
theorem layOut_after_roots (schema : Schema) (options : Options) (roots : List String)
    (root : String) :
    let engine := (Engine.withOptions schema options).after roots
    let next := (engine.layOut root).2
    (engine.layOut root).1 = schema.layOut root options ∧ next.cache.underway = [] ∧
      engine.cached ≤ next.cached ∧
      (∀ name t, engine.cache.template? name = some t → next.cache.template? name = some t) ∧
      (next.cache.templates.map (·.name)).Nodup ∧
      (∀ name t, next.cache.template? name = some t →
        (∀ span, (template engine.setting schema.declarations.length name span .empty).1 = .ok t) ∧
          Acyclic schema name) ∧
      ∀ name span cache e depth, cache.Certified engine.setting →
        Trail schema depth cache.underway → LeadsTo schema cache.underway name →
        (template engine.setting depth name span cache).1 = .error e →
          next.cache.template? name = none := by
  intro engine next
  have start : (Engine.withOptions schema options).Certified := ⟨Cache.certified_empty _, rfl⟩
  obtain ⟨certified, same⟩ := Engine.after_certified start roots
  obtain ⟨certified', same', more, result⟩ := Engine.layOut_certified certified root
  have sound : next.cache.Certified engine.setting := same' ▸ certified'.cache
  have schema_eq : engine.setting.schema = schema := congrArg Setting.schema same
  -- a struct that is kept is found wherever the structs underway lead to it
  have found {name : String} {t : Template} {cache : Cache} {depth : Nat} (span : Span)
      (kept : next.cache.template? name = some t) (here : cache.Certified engine.setting)
      (room : Trail schema depth cache.underway) (leads : LeadsTo schema cache.underway name) :
      (template engine.setting depth name span cache).1 = .ok t := by
    obtain ⟨member, rfl⟩ := Cache.template?_eq_some kept
    rw [← schema_eq] at room leads
    have alone : (⟨[], cache.underway⟩ : Cache).underway = cache.underway := rfl
    rw [(template_certified here span room leads).1]
    exact (sound.fresh t member).run room leads alone span
  refine ⟨?_, certified'.idle, more.length_le, ?_, certified'.cache.nodup, ?_, ?_⟩
  · rw [result, same]
    rfl
  · intro name t kept
    exact sound.template?_of_suffix more kept
  · intro name t kept
    refine ⟨fun span => found span kept (Cache.certified_empty _) (trail_nil schema) nofun, ?_⟩
    obtain ⟨member, rfl⟩ := Cache.template?_eq_some kept
    rw [← schema_eq]
    exact (sound.fresh t member).acyclic
  · intro name span cache e depth here room leads failed
    cases kept : next.cache.template? name with
    | none => rfl
    | some t =>
      rw [found span kept here room leads] at failed
      contradiction

/-- A schema with a cycle of two structs, and a struct apart from it. -/
def rings : Schema where
  types := ⟨#[⟨.named "Back", .dummy⟩, ⟨.named "Forth", .dummy⟩, ⟨.primitive .uint8, .dummy⟩]⟩
  declarations := [⟨"Forth", .struct [⟨"back", ⟨0⟩, .dummy⟩], .dummy⟩,
    ⟨"Back", .struct [⟨"forth", ⟨1⟩, .dummy⟩], .dummy⟩,
    ⟨"Apart", .struct [⟨"value", ⟨2⟩, .dummy⟩], .dummy⟩]

theorem layOut_after_roots_rings :
    let next := (((Engine.withOptions rings .default).after ["Forth", "Apart"]).layOut "Back").2
    (∃ e, rings.layOut "Back" .default = .error e ∧
      (((Engine.withOptions rings .default).after ["Forth", "Apart"]).layOut "Back").1 =
        .error e) ∧
      (∃ t, next.cache.template? "Apart" = some t) ∧ next.cache.template? "Forth" = none := by
  intro next
  obtain ⟨same, _, _, kept, _, _, failing⟩ :=
    layOut_after_roots rings .default ["Forth", "Apart"] "Back"
  have failed : rings.layOut "Back" .default = .error ⟨.recursiveType "Back", .dummy⟩ := by
    decide +kernel
  obtain ⟨t, found⟩ : ∃ t, ((Engine.withOptions rings .default).after
      ["Forth", "Apart"]).cache.template? "Apart" = some t :=
    Option.isSome_iff_exists.mp (by decide +kernel)
  have failed' : (template ((Engine.withOptions rings .default).after
      ["Forth", "Apart"]).setting 3 "Forth" .dummy .empty).1 =
        .error ⟨.recursiveType "Forth", .dummy⟩ := by
    decide +kernel
  exact ⟨⟨_, failed, same.trans failed⟩, ⟨t, kept "Apart" t found⟩,
    failing "Forth" .dummy .empty _ 3 (Cache.certified_empty _) (trail_nil rings)
      (fun _ absent => absurd absent List.not_mem_nil) failed'⟩

end PackedLayout
