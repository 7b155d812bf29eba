import PackedLayout.Engine.Cache
import PackedLayout.Proofs.Related

/-!
# What a run ensures

A computation that may fail ensures one property of its value and one of its failure. A run in an
engine also keeps an invariant of the cache, whether it fails or not. The rules follow the ways in
which runs are put together.
-/

namespace PackedLayout

section Except

variable {ε δ α β : Type}

theorem bind_eq_ok {run : Except ε α} {next : α → Except ε β} {b : β} :
    (run >>= next) = .ok b ↔ ∃ a, run = .ok a ∧ next a = .ok b := by
  cases run with
  | error e => simp [bind, Except.bind]
  | ok a => simp [bind, Except.bind]

theorem bind_eq_of_ok {run : Except ε α} {next : α → Except ε β} {a : α} (h : run = .ok a) :
    (run >>= next) = next a := by
  rw [h]
  rfl

theorem mapM_eq_ok {step : α → Except ε β} {xs : List α} {ys : List β} :
    xs.mapM step = .ok ys ↔ List.Forall₂ (fun x y => step x = .ok y) xs ys := by
  induction xs generalizing ys with
  | nil =>
    rw [List.mapM_nil, List.forall₂_nil_left_iff]
    exact ⟨fun h => (Except.ok.inj h).symm, fun h => congrArg _ h.symm⟩
  | cons x xs ih =>
    rw [List.mapM_cons, List.forall₂_cons_left_iff, bind_eq_ok]
    constructor
    · rintro ⟨y, first, h⟩
      obtain ⟨rest, others, h⟩ := bind_eq_ok.mp h
      exact ⟨y, rest, first, ih.mp others, (Except.ok.inj h).symm⟩
    · rintro ⟨y, rest, first, others, rfl⟩
      exact ⟨y, first, bind_eq_ok.mpr ⟨rest, ih.mpr others, rfl⟩⟩

/-- The value of a run satisfies `value`, and its error `failure`. -/
def Ensures (failure : ε → Prop) (value : α → Prop) : Except ε α → Prop
  | .ok a => value a
  | .error e => failure e

namespace Ensures

variable {failure : ε → Prop} {value weaker : α → Prop} {after : β → Prop} {run : Except ε α}

theorem of_ok (h : Ensures failure value run) {a : α} (done : run = .ok a) : value a := by
  rw [done] at h
  exact h

theorem of_error (h : Ensures failure value run) {e : ε} (failed : run = .error e) :
    failure e := by
  rw [failed] at h
  exact h

theorem mono (h : Ensures failure value run) (weaken : ∀ a, value a → weaker a) :
    Ensures failure weaker run := by
  cases run with
  | ok a => exact weaken a h
  | error e => exact h

theorem weaken (h : Ensures failure value run) (other : ε → Prop)
    (imp : ∀ e, failure e → other e) : Ensures other value run := by
  cases run with
  | ok a => exact h
  | error e => exact imp e h

theorem anyway (h : Ensures failure value run) : Ensures (fun _ => True) value run :=
  h.weaken _ fun _ _ => trivial

theorem bind {next : α → Except ε β} (h : Ensures failure value run)
    (step : ∀ a, value a → Ensures failure after (next a)) :
    Ensures failure after (run >>= next) := by
  cases run with
  | ok a => exact step a h
  | error e => exact h

theorem mapError {translate : ε → δ} {failed : δ → Prop} (h : Ensures failure value run)
    (blame : ∀ e, failure e → failed (translate e)) :
    Ensures failed value (run.mapError translate) := by
  cases run with
  | ok a => exact h
  | error e => exact blame e h

theorem mapM {step : α → Except ε β} {related : α → β → Prop} {xs : List α}
    (each : ∀ x ∈ xs, Ensures failure (related x) (step x)) :
    Ensures failure (List.Forall₂ related xs) (xs.mapM step) := by
  induction xs with
  | nil => exact List.Forall₂.nil
  | cons x xs ih =>
    rw [List.mapM_cons]
    apply (each x List.mem_cons_self).bind
    intro y first
    apply (ih fun x later => each x (List.mem_cons_of_mem _ later)).bind
    intro ys others
    exact List.Forall₂.cons first others

/-- What holds of the state before each element with the elements still to come, holds at the end
with none. -/
theorem foldlM {step : β → α → Except ε β} (holds : List α → β → Prop)
    (each : ∀ x rest b, holds (x :: rest) b → Ensures failure (holds rest) (step b x))
    {xs : List α} {b : β} (start : holds xs b) :
    Ensures failure (holds []) (xs.foldlM step b) := by
  induction xs generalizing b with
  | nil => exact start
  | cons x xs ih =>
    rw [List.foldlM_cons]
    exact (each x xs b start).bind fun b kept => ih kept

end Ensures

theorem ensures_orOverflow (result : Option α) :
    Ensures (· = Failure.overflow) (fun a => result = some a) (orOverflow result) := by
  cases result with
  | some a => exact rfl
  | none => exact rfl

end Except

section Engine

variable {α β : Type}

/-- A run in two steps comes to an end when both do. -/
theorem run_bind_eq_ok {act : EngineM α} {next : α → EngineM β} {cache : Cache} {b : β} :
    ((act >>= next) cache).1 = .ok b ↔
      ∃ a, (act cache).1 = .ok a ∧ (next a (act cache).2).1 = .ok b := by
  show (ExceptT.bindCont next (act cache).1 (act cache).2).1 = .ok b ↔ _
  cases (act cache).1 with
  | error e => exact ⟨nofun, fun ⟨_, h, _⟩ => absurd h nofun⟩
  | ok a => exact ⟨fun h => ⟨a, rfl, h⟩, fun ⟨_, h, done⟩ => Except.ok.inj h ▸ done⟩

/-- A run in an engine keeps `kept` of the cache, and ensures what it says of its result. -/
def Keeps (kept : Cache → Prop) (failure : LayoutError → Prop) (value : α → Prop)
    (act : EngineM α) : Prop :=
  ∀ cache, kept cache → kept (act cache).2 ∧ Ensures failure value (act cache).1

namespace Keeps

variable {kept : Cache → Prop} {failure : LayoutError → Prop} {value weaker : α → Prop}
  {after : β → Prop} {act : EngineM α}

theorem pure {a : α} (h : value a) : Keeps kept failure value (pure a) :=
  fun _ good => ⟨good, h⟩

theorem throw {e : LayoutError} (h : failure e) :
    Keeps kept failure value (throw e : EngineM α) :=
  fun _ good => ⟨good, h⟩

theorem lift {run : Except LayoutError α} (h : Ensures failure value run) :
    Keeps kept failure value (liftM run : EngineM α) :=
  fun _ good => ⟨good, h⟩

theorem get : Keeps kept failure kept (get : EngineM Cache) := fun _ good => ⟨good, good⟩

theorem modify {change : Cache → Cache} (h : ∀ cache, kept cache → kept (change cache)) :
    Keeps kept failure (fun _ => True) (modify change : EngineM Unit) :=
  fun cache good => ⟨h cache good, trivial⟩

theorem mono (h : Keeps kept failure value act) (weaken : ∀ a, value a → weaker a) :
    Keeps kept failure weaker act :=
  fun cache good => ⟨(h cache good).1, (h cache good).2.mono weaken⟩

theorem weaken (h : Keeps kept failure value act) (other : LayoutError → Prop)
    (imp : ∀ e, failure e → other e) : Keeps kept other value act :=
  fun cache good => ⟨(h cache good).1, (h cache good).2.weaken other imp⟩

/-- What is known of the value, however the run may fail. -/
theorem anyway (h : Keeps kept failure value act) : Keeps kept (fun _ => True) value act :=
  h.weaken _ fun _ _ => trivial

/-- What a run ensures in another way is known as well. -/
theorem ensuring {inner : Cache → Prop} {blame : LayoutError → Prop} {also : α → Prop}
    (h : Keeps kept failure value act) (h' : Keeps inner blame also act)
    (imp : ∀ cache, kept cache → inner cache) :
    Keeps kept failure (fun a => value a ∧ also a) act := by
  intro cache good
  obtain ⟨after, result⟩ := h cache good
  refine ⟨after, ?_⟩
  cases ran : (act cache).1 with
  | ok a => exact ⟨result.of_ok ran, (h' cache (imp cache good)).2.of_ok ran⟩
  | error e => exact result.of_error ran

theorem bind {next : α → EngineM β} (h : Keeps kept failure value act)
    (step : ∀ a, value a → Keeps kept failure after (next a)) :
    Keeps kept failure after (act >>= next) := by
  intro cache good
  obtain ⟨good, first⟩ := h cache good
  show kept (ExceptT.bindCont next (act cache).1 (act cache).2).2 ∧
    Ensures failure after (ExceptT.bindCont next (act cache).1 (act cache).2).1
  cases result : (act cache).1 with
  | ok a => exact step a (first.of_ok result) _ good
  | error e => exact ⟨good, first.of_error result⟩

theorem foldlM {step : β → α → EngineM β} (holds : List α → β → Prop)
    (each : ∀ x rest b, holds (x :: rest) b → Keeps kept failure (holds rest) (step b x))
    {xs : List α} {b : β} (start : holds xs b) :
    Keeps kept failure (holds []) (xs.foldlM step b) := by
  induction xs generalizing b with
  | nil => exact pure start
  | cons x xs ih =>
    rw [List.foldlM_cons]
    exact (each x xs b start).bind fun b still => ih still

/-- What each step sees to of its element holds of all elements at the end. -/
theorem foldlM_all {step : β → α → EngineM β} (holds : β → Prop) (seen : α → Prop) {xs : List α}
    (each : ∀ x ∈ xs, ∀ b, holds b →
      Keeps kept failure (fun next => holds next ∧ seen x) (step b x))
    {b : β} (start : holds b) :
    Keeps kept failure (fun last => holds last ∧ ∀ x ∈ xs, seen x) (xs.foldlM step b) := by
  induction xs generalizing b with
  | nil => exact pure ⟨start, nofun⟩
  | cons x xs ih =>
    rw [List.foldlM_cons]
    have ⟨each_first, each_later⟩ := List.forall_mem_cons.mp each
    refine (each_first b start).bind fun next ⟨still, first⟩ => ?_
    exact (ih each_later still).mono fun last ⟨done, others⟩ =>
      ⟨done, List.forall_mem_cons.mpr ⟨first, others⟩⟩

theorem whileUnderway {inner : Cache → Prop} (name : String) (h : Keeps inner failure value act)
    (enter : ∀ cache, kept cache → inner (cache.enter name))
    (leave : ∀ cache, inner cache → kept cache.leave) :
    Keeps kept failure value (whileUnderway name act) := by
  intro cache good
  obtain ⟨good, result⟩ := h _ (enter cache good)
  exact ⟨leave _ good, result⟩

end Keeps

theorem keeps_anything {kept : Cache → Prop} (run : Except LayoutError α) :
    Keeps kept (fun _ => True) (fun _ => True) (liftM run : EngineM α) := by
  apply Keeps.lift
  cases run <;> trivial

end Engine

end PackedLayout
