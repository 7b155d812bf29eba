import Mathlib.Data.List.Forall2

/-!
# Related lists

What two lists have in common whose elements are related one by one.
-/

namespace PackedLayout

variable {α β γ : Type} {r : α → β → Prop} {xs : List α} {ys : List β}

theorem exists_forall₂ (each : ∀ x ∈ xs, ∃ y, r x y) : ∃ ys, List.Forall₂ r xs ys := by
  induction xs with
  | nil => exact ⟨[], .nil⟩
  | cons x xs ih =>
    obtain ⟨y, first⟩ := each x List.mem_cons_self
    obtain ⟨ys, others⟩ := ih fun x later => each x (List.mem_cons_of_mem _ later)
    exact ⟨y :: ys, .cons first others⟩

theorem exists_left_of_mem (related : List.Forall₂ r xs ys) {y : β} (member : y ∈ ys) :
    ∃ x ∈ xs, r x y := by
  induction related with
  | nil => exact absurd member List.not_mem_nil
  | @cons x y' xs ys first _ ih =>
    obtain rfl | later := List.mem_cons.mp member
    · exact ⟨x, List.mem_cons_self, first⟩
    · obtain ⟨x', listed, related⟩ := ih later
      exact ⟨x', List.mem_cons_of_mem x listed, related⟩

theorem exists_right_of_mem (related : List.Forall₂ r xs ys) {x : α} (member : x ∈ xs) :
    ∃ y ∈ ys, r x y :=
  exists_left_of_mem related.flip member

theorem forall₂_trans {s : β → γ → Prop} {t : α → γ → Prop} (step : ∀ a b c, r a b → s b c → t a c)
    {zs : List γ} (first : List.Forall₂ r xs ys) (second : List.Forall₂ s ys zs) :
    List.Forall₂ t xs zs := by
  induction first generalizing zs with
  | nil => cases second; exact .nil
  | cons h _ ih =>
    cases second with
    | cons g rest => exact .cons (step _ _ _ h g) (ih rest)

theorem forall₂_concat {x : α} {y : β} (related : List.Forall₂ r xs ys) (last : r x y) :
    List.Forall₂ r (xs ++ [x]) (ys ++ [y]) := by
  induction related with
  | nil => exact .cons last .nil
  | cons first _ ih => exact .cons first ih

theorem pairwise_of_forall₂ {p : α → α → Prop} {q : β → β → Prop}
    (step : ∀ a b c d, p a c → r a b → r c d → q b d) (related : List.Forall₂ r xs ys)
    (pairs : xs.Pairwise p) : ys.Pairwise q := by
  induction related with
  | nil => exact List.Pairwise.nil
  | cons first rest ih =>
    obtain ⟨apart, pairs⟩ := List.pairwise_cons.mp pairs
    refine List.Pairwise.cons (fun d later => ?_) (ih pairs)
    obtain ⟨c, listed, related⟩ := exists_left_of_mem rest later
    exact step _ _ _ _ (apart c listed) first related

end PackedLayout
