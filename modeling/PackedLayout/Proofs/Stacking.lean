import Mathlib.Data.List.Basic
import PackedLayout.Proofs.SubsetSums
import PackedLayout.Variant.Arm

/-!
# Items back to back

A stack holds its items one right after the other. `backToBack` says where each of them lies:

- `of?_eq_some`: a stack succeeds exactly when its height fits, and holds its items back to back;
- `mem_backToBack`, `pairwise_backToBack`: they lie inside the stack and one behind the other;
- `bytes_dvd_of_mem_backToBack`: whole items in descending order of class are all aligned.
-/

namespace PackedLayout

/-- The exact size of some items together. -/
abbrev exactSize (items : List Item) : Nat := exactSum (items.map (·.size))

theorem exactSize_append (items others : List Item) :
    exactSize (items ++ others) = exactSize items + exactSize others := by
  rw [exactSize, List.map_append, exactSum_append]

theorem exactSize_perm {items others : List Item} (h : items.Perm others) :
    exactSize items = exactSize others := exactSum_perm (h.map _)

theorem size_le_exactSize {item : Item} {items : List Item} (h : item ∈ items) :
    item.size ≤ exactSize items := by
  have sub := (List.singleton_sublist.mpr h).map (·.size)
  exact exactSum_le_of_sublist sub

theorem dvd_exactSize {unit : Nat} {items : List Item} (each : ∀ item ∈ items, unit ∣ item.size) :
    unit ∣ exactSize items := by
  induction items with
  | nil => exact Nat.dvd_zero unit
  | cons item rest ih =>
    exact Nat.dvd_add (each item List.mem_cons_self)
      (ih fun other later => each other (List.mem_cons_of_mem _ later))

theorem totalSize?_eq_some {w : Width} {items : List Item} {n : Nat} :
    totalSize? w items = some n ↔ w.Fits (exactSize items) ∧ n = exactSize items :=
  Width.sum?_eq_some

/-- An item takes at least one byte, and a whole number of units of its class. -/
structure Item.Whole (item : Item) : Prop where
  size_pos : 0 < item.size
  size_dvd : item.align.bytes ∣ item.size

theorem eq_nil_of_exactSize {items : List Item} (whole : ∀ item ∈ items, item.Whole)
    (none : exactSize items = 0) : items = [] := by
  cases items with
  | nil => rfl
  | cons item rest =>
    have pos := (whole item List.mem_cons_self).size_pos
    have le := size_le_exactSize (List.mem_cons_self (a := item) (l := rest))
    omega

/-! ## The order of placement -/

theorem flatMap_filter_perm {α κ : Type} [DecidableEq κ] (key : α → κ) {keys : List κ}
    (distinct : keys.Nodup) {xs : List α} (covered : ∀ x ∈ xs, key x ∈ keys) :
    (keys.flatMap fun k => xs.filter (key · == k)).Perm xs := by
  induction keys generalizing xs with
  | nil =>
    have none : xs = [] := List.eq_nil_iff_forall_not_mem.mpr fun x hx =>
      List.not_mem_nil (covered x hx)
    rw [none]
    exact List.Perm.refl _
  | cons k keys ih =>
    obtain ⟨fresh, distinct⟩ := List.nodup_cons.mp distinct
    rw [List.flatMap_cons]
    have later : (keys.flatMap fun j => xs.filter (key · == j)) =
        keys.flatMap fun j => (xs.filter fun x => !(key x == k)).filter (key · == j) := by
      apply List.flatMap_congr
      intro j hj
      rw [List.filter_filter]
      apply List.filter_congr
      intro x _
      by_cases same : key x = j
      · have differ : j ≠ k := fun h => fresh (h ▸ hj)
        simp [same, differ]
      · simp [same]
    rw [later]
    refine (List.Perm.append_left _ (ih distinct fun x hx => ?_)).trans
      (List.filter_append_perm _ xs)
    obtain ⟨member, other⟩ := List.mem_filter.mp hx
    obtain here | there := List.mem_cons.mp (covered x member)
    · simp [here] at other
    · exact there

theorem byClass_perm {α : Type} (align : α → Alignment) (xs : List α) :
    (byClass align xs).Perm xs :=
  flatMap_filter_perm align (by decide) fun x _ => (align x).mem_descending

/-- Sorting by class looks at nothing but the class. -/
theorem map_byClass {α β : Type} (align : β → Alignment) (f : α → β) (xs : List α) :
    (byClass (fun x => align (f x)) xs).map f = byClass align (xs.map f) := by
  rw [byClass, byClass, List.map_flatMap]
  apply List.flatMap_congr
  intro a _
  rw [List.filter_map]
  rfl

theorem largestFirst_perm (items : List Item) : (largestFirst items).Perm items :=
  byClass_perm Item.align items

/-- No item comes before one of a larger class. -/
def Descending (items : List Item) : Prop := items.Pairwise fun a b => b.align ≤ a.align

theorem descending_largestFirst (items : List Item) : Descending (largestFirst items) := by
  refine List.pairwise_flatMap.mpr ⟨fun a _ => ?_, ?_⟩
  · apply List.pairwise_of_forall_mem_list
    intro x hx y hy
    have hx : x.align = a := by simpa using (List.mem_filter.mp hx).2
    have hy : y.align = a := by simpa using (List.mem_filter.mp hy).2
    rw [hx, hy]
    exact a.le_refl
  · have ordered : Alignment.descending.Pairwise fun a b => b ≤ a := by decide
    refine ordered.imp fun {a b} le x hx y hy => ?_
    have hx : x.align = a := by simpa using (List.mem_filter.mp hx).2
    have hy : y.align = b := by simpa using (List.mem_filter.mp hy).2
    rwa [hx, hy]

/-! ## Offsets -/

/-- Items with their offsets when each begins where the one before it ends. -/
def backToBack : Nat → List Item → List (Nat × Item)
  | _, [] => []
  | start, item :: rest => (start, item) :: backToBack (start + item.size) rest

theorem map_snd_backToBack (start : Nat) (items : List Item) :
    (backToBack start items).map (·.2) = items := by
  induction items generalizing start with
  | nil => rfl
  | cons item rest ih => rw [backToBack, List.map_cons, ih]

theorem mem_backToBack {start : Nat} {items : List Item} {at_ : Nat × Item}
    (h : at_ ∈ backToBack start items) :
    start ≤ at_.1 ∧ at_.1 + at_.2.size ≤ start + exactSize items := by
  induction items generalizing start with
  | nil => exact absurd h List.not_mem_nil
  | cons item rest ih =>
    have size : exactSize (item :: rest) = item.size + exactSize rest := rfl
    rw [size]
    obtain rfl | later := List.mem_cons.mp h
    · exact ⟨Nat.le_refl _, by show start + item.size ≤ _; omega⟩
    · obtain ⟨above, below⟩ := ih later
      exact ⟨by omega, by omega⟩

theorem pairwise_backToBack (start : Nat) (items : List Item) :
    (backToBack start items).Pairwise fun a b => a.1 + a.2.size ≤ b.1 := by
  induction items generalizing start with
  | nil => exact List.Pairwise.nil
  | cons item rest ih =>
    rw [backToBack]
    exact List.Pairwise.cons (fun b later => (mem_backToBack later).1) (ih _)

/-- Whole items in descending order of class are aligned if the first of them is. -/
theorem bytes_dvd_of_mem_backToBack {start : Nat} {items : List Item}
    (whole : ∀ item ∈ items, item.Whole) (ordered : Descending items)
    (aligned : ∀ item ∈ items, item.align.bytes ∣ start) {at_ : Nat × Item}
    (h : at_ ∈ backToBack start items) : at_.2.align.bytes ∣ at_.1 := by
  induction items generalizing start with
  | nil => exact absurd h List.not_mem_nil
  | cons item rest ih =>
    obtain rfl | later := List.mem_cons.mp h
    · exact aligned item List.mem_cons_self
    · obtain ⟨first, ordered⟩ := List.pairwise_cons.mp ordered
      refine ih (fun other hr => whole other (List.mem_cons_of_mem _ hr)) ordered
        (fun other hr => ?_) later
      have units : other.align.bytes ∣ item.size :=
        Nat.dvd_trans (Alignment.bytes_dvd_of_le (first other hr))
          (whole item List.mem_cons_self).size_dvd
      exact Nat.dvd_add (aligned other (List.mem_cons_of_mem _ hr)) units

namespace Stack

variable {w : Width}

/-- The items from the bottom up. -/
def items (stack : Stack) : List Item := (stack.placed.map (·.2)).reverse

/-- The items lie back to back from the bottom, up to the height. -/
structure Compact (stack : Stack) : Prop where
  placed : stack.placed.reverse = backToBack 0 stack.items
  height : stack.height = exactSize stack.items

theorem push?_eq_some {stack next : Stack} {item : Item} :
    stack.push? w item = some next ↔ w.Fits (stack.height + item.size) ∧
      next = ⟨stack.height + item.size, (stack.height, item) :: stack.placed⟩ := by
  unfold push?
  rw [Option.map_eq_some_iff]
  constructor
  · rintro ⟨height, fits, rfl⟩
    obtain ⟨fits, rfl⟩ := Width.checked_eq_some.mp fits
    exact ⟨fits, rfl⟩
  · rintro ⟨fits, rfl⟩
    exact ⟨_, fits, rfl⟩

/-- Pushing items succeeds exactly when the height they lead to fits. -/
theorem foldlM_push?_eq_some {list : List Item} {stack next : Stack} (fits : w.Fits stack.height) :
    list.foldlM (push? w) stack = some next ↔ w.Fits (stack.height + exactSize list) ∧
      next = ⟨stack.height + exactSize list,
        (backToBack stack.height list).reverse ++ stack.placed⟩ := by
  induction list generalizing stack with
  | nil =>
    have none : exactSize [] = 0 := rfl
    rw [List.foldlM_nil, none, Nat.add_zero]
    exact ⟨fun h => ⟨fits, (Option.some.inj h).symm⟩, fun h => congrArg some h.2.symm⟩
  | cons item rest ih =>
    have size : exactSize (item :: rest) = item.size + exactSize rest := rfl
    rw [List.foldlM_cons, Option.bind_eq_bind, Option.bind_eq_some_iff, size, backToBack,
      List.reverse_cons, List.append_assoc]
    constructor
    · rintro ⟨pushed, hpush, h⟩
      obtain ⟨fits, rfl⟩ := push?_eq_some.mp hpush
      rw [ih fits, Nat.add_assoc] at h
      exact h
    · rintro ⟨fits, rfl⟩
      have step : w.Fits (stack.height + item.size) := fits.mono (by omega)
      refine ⟨_, push?_eq_some.mpr ⟨step, rfl⟩, ?_⟩
      rw [ih step]
      exact ⟨fits.mono (Nat.le_of_eq (Nat.add_assoc _ _ _)), by rw [Nat.add_assoc]; rfl⟩

theorem of?_eq_some {list : List Item} {stack : Stack} :
    of? w list = some stack ↔ w.Fits (exactSize list) ∧
      stack = ⟨exactSize list, (backToBack 0 list).reverse⟩ := by
  unfold of?
  rw [foldlM_push?_eq_some (Width.fits_zero w), List.append_nil, Nat.zero_add]

theorem items_of? {list : List Item} {stack : Stack} (h : of? w list = some stack) :
    stack.items = list := by
  obtain ⟨_, rfl⟩ := of?_eq_some.mp h
  rw [items, List.map_reverse, List.reverse_reverse, map_snd_backToBack]

theorem compact_of? {list : List Item} {stack : Stack} (h : of? w list = some stack) :
    stack.Compact := by
  have same := items_of? h
  obtain ⟨_, rfl⟩ := of?_eq_some.mp h
  exact ⟨by rw [same, List.reverse_reverse], by rw [same]⟩

theorem mem_placed {stack : Stack} (compact : stack.Compact) {at_ : Nat × Item}
    (h : at_ ∈ stack.placed) :
    at_.2 ∈ stack.items ∧ at_.1 + at_.2.size ≤ stack.height := by
  refine ⟨List.mem_reverse.mpr (List.mem_map_of_mem h), ?_⟩
  have listed : at_ ∈ backToBack 0 stack.items := compact.placed ▸ List.mem_reverse.mpr h
  have inside := (mem_backToBack listed).2
  rw [compact.height]
  omega

theorem pairwise_placed {stack : Stack} (compact : stack.Compact) :
    stack.placed.Pairwise fun a b => b.1 + b.2.size ≤ a.1 := by
  have ordered := pairwise_backToBack 0 stack.items
  rw [← compact.placed] at ordered
  exact List.pairwise_reverse.mp ordered

theorem bytes_dvd_of_mem_placed {stack : Stack} (compact : stack.Compact)
    (whole : ∀ item ∈ stack.items, item.Whole) (ordered : Descending stack.items)
    {at_ : Nat × Item} (h : at_ ∈ stack.placed) : at_.2.align.bytes ∣ at_.1 := by
  have listed : at_ ∈ backToBack 0 stack.items := compact.placed ▸ List.mem_reverse.mpr h
  exact bytes_dvd_of_mem_backToBack whole ordered (fun _ _ => Nat.dvd_zero _) listed

end Stack

end PackedLayout
