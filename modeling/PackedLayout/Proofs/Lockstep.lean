import PackedLayout.Proofs.Outcomes
import PackedLayout.Proofs.StorageWords

/-!
# Runs in words and in exact arithmetic

A run in words is the exact one, unless it overflows. Then a number of bytes is needed that is too
large for a word. The exact run never overflows:

- `Matches`: how the results of the two runs match;
- `Steps`: two runs in engines that leave the cache as it is, with rules for the ways in which runs
  are put together;
- `Turn`: when it is the turn of an element in a run over a list.
-/

namespace PackedLayout

variable {α β : Type} {needed more : Nat → Prop} {value weaker : α → Prop} {after : β → Prop}

/-- The error says that a size needs more than a word. -/
def LayoutError.Overflows (e : LayoutError) : Prop := e.cause = .sizeOverflow

theorem LayoutError.overflows_overflow (span : Span) : (overflow span).Overflows := rfl

/-- The run in words overflows, and a number is needed that is too large. -/
def Overrun (needed : Nat → Prop) (run : Except LayoutError α) : Prop :=
  ∃ e n, run = .error e ∧ e.Overflows ∧ needed n ∧ Width.words ≤ n

/-- The run in words overflows for a number that is needed, or it ends like the exact run, which
does not overflow. -/
def Matches (needed : Nat → Prop) (value : α → Prop) (run exact : Except LayoutError α) : Prop :=
  Overrun needed run ∨ run = exact ∧ Ensures (¬·.Overflows) value exact

theorem Overrun.mono {run : Except LayoutError α} (h : Overrun needed run)
    (imp : ∀ n, needed n → more n) : Overrun more run := by
  obtain ⟨e, n, failed, overflows, need, large⟩ := h
  exact ⟨e, n, failed, overflows, imp n need, large⟩

namespace Matches

variable {run exact : Except LayoutError α}

theorem mono (h : Matches needed value run exact) (weaken : ∀ a, value a → weaker a) :
    Matches needed weaker run exact :=
  h.imp_right fun ⟨same, holds⟩ => ⟨same, holds.mono weaken⟩

theorem allow (h : Matches needed value run exact) (imp : ∀ n, needed n → more n) :
    Matches more value run exact :=
  h.imp_left fun overran => overran.mono imp

theorem bind {next next' : α → Except LayoutError β} (h : Matches needed value run exact)
    (step : ∀ a, value a → exact = .ok a → Matches needed after (next a) (next' a)) :
    Matches needed after (run.bind next) (exact.bind next') := by
  obtain ⟨e, n, rfl, overflows⟩ | ⟨rfl, holds⟩ := h
  · exact .inl ⟨e, n, rfl, overflows⟩
  · cases run with
    | ok a => exact step a holds rfl
    | error e => exact .inr ⟨rfl, holds⟩

end Matches

/-- What cannot fail in exact arithmetic matches if all that is too large is needed. -/
theorem InWords.matches {size : α → Nat} {span : Span} {run exact : Except LayoutError α}
    (h : InWords (.overflow span) (Width.words ≤ size ·) run exact) :
    Matches (fun n => ∃ a, exact = .ok a ∧ size a = n) (fun a => run = .ok a) run exact := by
  obtain ⟨a, done, same | ⟨failed, large⟩⟩ := h
  · refine .inr ⟨same.trans done.symm, ?_⟩
    rw [done]
    exact same
  · exact .inl ⟨_, _, failed, LayoutError.overflows_overflow span, ⟨a, done, rfl⟩, large⟩

/-- So does what overflows at a place in the schema. -/
theorem InWords.matches_located {size : α → Nat} {run exact : Except Failure α}
    (h : InWords .overflow (Width.words ≤ size ·) run exact) (span : Span) :
    Matches (fun n => ∃ a, exact = .ok a ∧ size a = n) (fun a => run = .ok a)
      (run.mapError (Failure.locate span)) (exact.mapError (Failure.locate span)) := by
  obtain ⟨a, rfl, rfl | ⟨rfl, large⟩⟩ := h
  · exact .inr ⟨rfl, rfl⟩
  · exact .inl ⟨_, _, rfl, LayoutError.overflows_overflow span, ⟨a, rfl, rfl⟩, large⟩

/-- Two runs in engines with the same cache match, and leave the cache as it is unless the one in
words overflows. -/
def Steps (cache : Cache) (needed : Nat → Prop) (value : α → Prop) (act act' : EngineM α) : Prop :=
  Overrun needed (act cache).1 ∨
    act cache = act' cache ∧ (act' cache).2 = cache ∧ Ensures (¬·.Overflows) value (act' cache).1

namespace Steps

variable {cache : Cache} {act act' : EngineM α}

theorem matches_ (h : Steps cache needed value act act') :
    Matches needed value (act cache).1 (act' cache).1 :=
  h.imp_right fun ⟨same, _, holds⟩ => ⟨congrArg Prod.fst same, holds⟩

theorem lift {run run' : Except LayoutError α} (h : Matches needed value run run') :
    Steps cache needed value (liftM run : EngineM α) (liftM run') := by
  obtain overran | ⟨rfl, holds⟩ := h
  · exact .inl overran
  · exact .inr ⟨rfl, rfl, holds⟩

theorem pure {a : α} (h : value a) : Steps cache needed value (pure a) (pure a) :=
  .inr ⟨rfl, rfl, h⟩

theorem throw {e : LayoutError} (h : ¬e.Overflows) :
    Steps cache needed value (throw e : EngineM α) (throw e) :=
  .inr ⟨rfl, rfl, h⟩

theorem mono (h : Steps cache needed value act act') (weaken : ∀ a, value a → weaker a) :
    Steps cache needed weaker act act' :=
  h.imp_right fun ⟨same, kept, holds⟩ => ⟨same, kept, holds.mono weaken⟩

theorem allow (h : Steps cache needed value act act') (imp : ∀ n, needed n → more n) :
    Steps cache more value act act' :=
  h.imp_left fun overran => overran.mono imp

/-- What the run in words ensures on its own holds of the result. -/
theorem ensuring {kept : Cache → Prop} {failure : LayoutError → Prop} {also : α → Prop}
    (h : Steps cache needed value act act') (keeps : Keeps kept failure also act)
    (good : kept cache) : Steps cache needed (fun a => value a ∧ also a) act act' := by
  obtain overran | ⟨same, unchanged, holds⟩ := h
  · exact .inl overran
  · refine .inr ⟨same, unchanged, ?_⟩
    have result := (keeps cache good).2
    rw [same] at result
    cases ran : (act' cache).1 with
    | ok a => exact ⟨holds.of_ok ran, result.of_ok ran⟩
    | error e => exact holds.of_error ran

/-- The second runs go on from what the first exact run ends in. -/
theorem bind {next next' : α → EngineM β} (h : Steps cache needed value act act')
    (step : ∀ a, value a → act' cache = (.ok a, cache) →
      Steps cache needed after (next a) (next' a)) :
    Steps cache needed after (act >>= next) (act' >>= next') := by
  obtain ⟨e, n, failed, overflows, need⟩ | ⟨same, unchanged, holds⟩ := h
  · refine .inl ⟨e, n, ?_, overflows, need⟩
    show (ExceptT.bindCont next (act cache).1 (act cache).2).1 = _
    rw [failed]
    rfl
  · unfold Steps
    show Overrun needed (ExceptT.bindCont next (act cache).1 (act cache).2).1 ∨
      ExceptT.bindCont next (act cache).1 (act cache).2 =
        ExceptT.bindCont next' (act' cache).1 (act' cache).2 ∧
      (ExceptT.bindCont next' (act' cache).1 (act' cache).2).2 = cache ∧
      Ensures (¬·.Overflows) after (ExceptT.bindCont next' (act' cache).1 (act' cache).2).1
    rw [same, unchanged]
    cases ran : (act' cache).1 with
    | ok a => exact step a (holds.of_ok ran) (Prod.ext ran unchanged)
    | error e => exact .inr ⟨rfl, rfl, holds.of_error ran⟩

theorem whileUnderway (name : String) (h : Steps (cache.enter name) needed value act act') :
    Steps cache needed value (whileUnderway name act) (whileUnderway name act') := by
  obtain overran | ⟨same, unchanged, holds⟩ := h
  · exact .inl overran
  · refine .inr ⟨?_, ?_, holds⟩
    · unfold PackedLayout.whileUnderway
      rw [same]
    · show (act' (cache.enter name)).2.leave = cache
      rw [unchanged]
      rfl

end Steps

/-! ## Lists -/

/-- In a run over the list it is the turn of an element, with what the run has made so far. -/
inductive Turn (step : β → α → Except LayoutError β) : List α → β → α → β → Prop
  | here {x : α} {rest : List α} {b : β} : Turn step (x :: rest) b x b
  | later {x y : α} {rest : List α} {b next now : β} (ran : step b x = .ok next)
    (turn : Turn step rest next y now) : Turn step (x :: rest) b y now

/-- A run over a list needs what its elements need when it is their turn. -/
theorem Steps.foldlM {cache : Cache} {step step' : β → α → EngineM β} {need : β → α → Nat → Prop}
    (holds : List α → β → Prop)
    (each : ∀ x rest b, holds (x :: rest) b →
      Steps cache (need b x) (holds rest) (step b x) (step' b x))
    {xs : List α} {b : β} (start : holds xs b) :
    Steps cache (fun n => ∃ x now, Turn (fun b x => (step' b x cache).1) xs b x now ∧ need now x n)
      (holds []) (xs.foldlM step b) (xs.foldlM step' b) := by
  induction xs generalizing b with
  | nil => exact pure start
  | cons x rest ih =>
    rw [List.foldlM_cons, List.foldlM_cons]
    apply ((each x rest b start).allow fun n need => ⟨x, b, .here, need⟩).bind
    intro next still ran
    exact (ih still).allow fun n ⟨y, now, turn, need⟩ =>
      ⟨y, now, .later (congrArg Prod.fst ran) turn, need⟩

end PackedLayout
