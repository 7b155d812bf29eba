import PackedLayout.Proofs.Outcomes

/-!
# Runs that agree

Two runs agree when they end alike, with the same value or the same error, unless the first one
fails in a way that is let pass. Runs in two engines also keep a relation between the caches. The
rules follow the ways in which runs are put together, as those of `Keeps` do.
-/

namespace PackedLayout

variable {α β : Type} {rel : Cache → Cache → Prop} {loose : LayoutError → Prop}
  {value weaker : α → Prop} {after : β → Prop}

/-- The runs end alike, in a value that satisfies `value` if there is one, unless the first fails
in a way that `loose` lets pass. -/
def Alike (loose : LayoutError → Prop) (value : α → Prop) (run run' : Except LayoutError α) :
    Prop :=
  (∃ e, run = .error e ∧ loose e) ∨ (run' = run ∧ ∀ a, run = .ok a → value a)

namespace Alike

variable {run run' : Except LayoutError α}

theorem same (h : Ensures (fun _ => True) value run) : Alike loose value run run :=
  .inr ⟨rfl, fun _ done => h.of_ok done⟩

theorem ok {a : α} (h : Alike loose value run run') (done : run = .ok a) :
    run' = .ok a ∧ value a := by
  obtain ⟨e, failed, _⟩ | ⟨same, holds⟩ := h
  · rw [done] at failed
    contradiction
  · exact ⟨same.trans done, holds a done⟩

end Alike

/-- Two runs end alike with related caches, unless the first fails in a way that `loose` lets
pass. -/
def Meet (rel : Cache → Cache → Prop) (loose : LayoutError → Prop) (value : α → Prop)
    (r r' : Except LayoutError α × Cache) : Prop :=
  (∃ e, r.1 = .error e ∧ loose e) ∨
    (r'.1 = r.1 ∧ rel r.2 r'.2 ∧ ∀ a, r.1 = .ok a → value a)

/-- The runs of two engines with related caches end alike and keep the caches related, unless the
first fails in a way that `loose` lets pass. -/
def Agree (rel : Cache → Cache → Prop) (loose : LayoutError → Prop) (value : α → Prop)
    (act act' : EngineM α) : Prop :=
  ∀ c c', rel c c' → Meet rel loose value (act c) (act' c')

namespace Agree

variable {act act' : EngineM α}

theorem alike (h : Agree rel loose value act act') {c c' : Cache} (start : rel c c') :
    Alike loose value (act c).1 (act' c').1 := by
  obtain failed | ⟨same, _, holds⟩ := h c c' start
  · exact .inl failed
  · exact .inr ⟨same, holds⟩

theorem lift {run run' : Except LayoutError α} (h : Alike loose value run run') :
    Agree rel loose value (liftM run : EngineM α) (liftM run') := by
  intro c c' start
  obtain failed | ⟨same, holds⟩ := h
  · exact .inl failed
  · exact .inr ⟨same, start, holds⟩

theorem pure {a : α} (h : value a) : Agree rel loose value (pure a) (pure a) :=
  fun _ _ start => .inr ⟨rfl, start, fun _ done => Except.ok.inj done ▸ h⟩

theorem throw (e : LayoutError) :
    Agree rel loose value (throw e : EngineM α) (throw e) :=
  fun _ _ start => .inr ⟨rfl, start, nofun⟩

theorem modify {change change' : Cache → Cache}
    (h : ∀ c c', rel c c' → rel (change c) (change' c')) :
    Agree rel loose (fun _ => True) (modify change : EngineM Unit) (modify change') :=
  fun c c' start => .inr ⟨rfl, h c c' start, fun _ _ => trivial⟩

theorem mono (h : Agree rel loose value act act') (weaken : ∀ a, value a → weaker a) :
    Agree rel loose weaker act act' := by
  intro c c' start
  obtain failed | ⟨same, related, holds⟩ := h c c' start
  · exact .inl failed
  · exact .inr ⟨same, related, fun a done => weaken a (holds a done)⟩

theorem bind {next next' : α → EngineM β} (h : Agree rel loose value act act')
    (step : ∀ a, value a → Agree rel loose after (next a) (next' a)) :
    Agree rel loose after (act >>= next) (act' >>= next') := by
  intro c c' start
  show Meet rel loose after (ExceptT.bindCont next (act c).1 (act c).2)
    (ExceptT.bindCont next' (act' c').1 (act' c').2)
  obtain ⟨e, failed, passed⟩ | ⟨same, related, holds⟩ := h c c' start
  · rw [failed]
    exact .inl ⟨e, rfl, passed⟩
  · rw [same]
    cases result : (act c).1 with
    | ok a => exact step a (holds a result) _ _ related
    | error e => exact .inr ⟨rfl, related, nofun⟩

theorem foldlM {step step' : β → α → EngineM β} (holds : List α → β → Prop)
    (each : ∀ x rest b, holds (x :: rest) b →
      Agree rel loose (holds rest) (step b x) (step' b x))
    {xs : List α} {b : β} (start : holds xs b) :
    Agree rel loose (holds []) (xs.foldlM step b) (xs.foldlM step' b) := by
  induction xs generalizing b with
  | nil => exact pure start
  | cons x xs ih =>
    rw [List.foldlM_cons, List.foldlM_cons]
    exact (each x xs b start).bind fun b still => ih still

theorem whileUnderway {inner : Cache → Cache → Prop} (name : String)
    (h : Agree inner loose value act act')
    (enter : ∀ c c', rel c c' → inner (c.enter name) (c'.enter name))
    (leave : ∀ c c', inner c c' → rel c.leave c'.leave) :
    Agree rel loose value (whileUnderway name act) (whileUnderway name act') := by
  intro c c' start
  obtain failed | ⟨same, related, holds⟩ := h _ _ (enter c c' start)
  · exact .inl failed
  · exact .inr ⟨same, leave _ _ related, holds⟩

end Agree

end PackedLayout
