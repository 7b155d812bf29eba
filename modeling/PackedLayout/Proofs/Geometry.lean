import PackedLayout.Proofs.Shape
import PackedLayout.Proofs.Stacking

/-!
# Where elements lie

A leaf inside arrays has one element for every choice of indices. Leaves are arranged in a region
when all of their elements are aligned and inside of it, and any two that may be live together
are apart. Every way in which a layout puts regions together keeps them arranged:

- `Arranged.merge`: regions at aligned offsets, apart or in different arms of a variant;
- `Arranged.repeats`: a region repeated back to back;
- `Arranged.under`, `Arranged.congr`: a region seen from further out.
-/

namespace PackedLayout

/-- How an array repeats its element. -/
structure Dim where
  stride : Nat
  length : Nat
deriving DecidableEq

/-- The distance from the first element to the one at some indices, outermost array first. -/
inductive Distance : List Dim → List Nat → Nat → Prop
  | nil : Distance [] [] 0
  | cons {d : Dim} {dims : List Dim} {k : Nat} {indices : List Nat} {n : Nat}
    (inside : k < d.length) (inner : Distance dims indices n) :
    Distance (d :: dims) (k :: indices) (k * d.stride + n)

/-- What the slots and the packs of leaves stand for. -/
structure Legend where
  part : Nat → Part
  dim : PackId → Dim

/-- Two legends say the same about the arrays around a leaf. -/
def Legend.SameDims (g g' : Legend) (leaf : Leaf) : Prop :=
  ∀ id ∈ leaf.packs, g'.dim id = g.dim id

namespace Legend

variable {g g' : Legend} {size : Nat} {align : Alignment} {l m leaf : Leaf} {leaves : List Leaf}

/-- The element of a leaf at some indices begins at `start`. -/
def Begins (g : Legend) (leaf : Leaf) (indices : List Nat) (start : Nat) : Prop :=
  ∃ n, Distance (leaf.packs.map g.dim) indices n ∧ start = leaf.offset + n

/-- The elements of a leaf lie in a region. -/
structure Lies (g : Legend) (size : Nat) (align : Alignment) (leaf : Leaf) : Prop where
  unit_eq : leaf.align.bytes = (g.part leaf.slot).unit
  align_le : leaf.align ≤ align
  lengths_eq : (leaf.packs.map g.dim).map (·.length) = lengths (g.part leaf.slot).path
  offset_le : leaf.offset ≤ size
  aligned : ∀ indices start, g.Begins leaf indices start → leaf.align.bytes ∣ start
  inside : ∀ indices start, g.Begins leaf indices start →
    start + (g.part leaf.slot).size ≤ size

/-- Elements of two leaves are apart, unless they are one element or are exclusive. -/
def Apart (g : Legend) (l m : Leaf) : Prop :=
  ∀ indices indices' x y, g.Begins l indices x → g.Begins m indices' y →
    (l.slot, indices) ≠ (m.slot, indices') →
    ¬Exclusive (g.part l.slot).path indices (g.part m.slot).path indices' →
    x + (g.part l.slot).size ≤ y ∨ y + (g.part m.slot).size ≤ x

/-- Leaves in different arms of one variant. -/
def Divided (g : Legend) (l m : Leaf) : Prop :=
  ∃ i j inner inner', i ≠ j ∧ (g.part l.slot).path = .arm i :: inner ∧
    (g.part m.slot).path = .arm j :: inner'

/-- The leaves of a region of some size whose offset is a multiple of a class. -/
structure Arranged (g : Legend) (size : Nat) (align : Alignment) (leaves : List Leaf) :
    Prop where
  lies : ∀ leaf ∈ leaves, g.Lies size align leaf
  apart : ∀ l ∈ leaves, ∀ m ∈ leaves, g.Apart l m

theorem Apart.symm (h : g.Apart l m) : g.Apart m l := by
  intro indices indices' x y first second differ live
  refine (h indices' indices y x second first (fun same => differ same.symm) ?_).symm
  rintro ⟨around, i, j, inner, inner', here, there, arms, same⟩
  exact live ⟨around, j, i, inner', inner, there, here, Ne.symm arms, same.symm⟩

theorem Divided.apart (h : g.Divided l m) : g.Apart l m := by
  obtain ⟨i, j, inner, inner', differ, here, there⟩ := h
  intro indices indices' _ _ _ _ _ live
  rw [here, there] at live
  exact absurd (exclusive_arms differ inner inner' indices indices') live

/-! ## Seen from further out -/

theorem map_dim_congr (same : g.SameDims g' leaf) :
    leaf.packs.map g'.dim = leaf.packs.map g.dim := List.map_congr_left same

theorem begins_congr (same : g.SameDims g' leaf) {indices : List Nat} {start : Nat} :
    g'.Begins leaf indices start ↔ g.Begins leaf indices start := by
  unfold Begins
  rw [map_dim_congr same]

/-- A leaf under another name: it lies in the same place and in the same arrays. -/
structure Renames (g g' : Legend) (leaf other : Leaf) : Prop where
  offset_eq : other.offset = leaf.offset
  align_eq : other.align = leaf.align
  part_eq : g'.part other.slot = g.part leaf.slot
  dims_eq : other.packs.map g'.dim = leaf.packs.map g.dim

theorem Renames.begins {other : Leaf} (h : g.Renames g' leaf other) {indices : List Nat}
    {start : Nat} : g'.Begins other indices start ↔ g.Begins leaf indices start := by
  unfold Begins
  rw [h.dims_eq, h.offset_eq]

/-- A region whose leaves get other names. -/
theorem Arranged.rename (h : g.Arranged size align leaves) (name : Leaf → Leaf)
    (renames : ∀ leaf ∈ leaves, g.Renames g' leaf (name leaf))
    (distinct : ∀ l m, (name l).slot = (name m).slot ↔ l.slot = m.slot) :
    g'.Arranged size align (leaves.map name) where
  lies := by
    intro leaf member
    obtain ⟨leaf, listed, rfl⟩ := List.mem_map.mp member
    have lies := h.lies leaf listed
    have named := renames leaf listed
    refine ⟨?_, ?_, ?_, ?_, fun indices start begins => ?_, fun indices start begins => ?_⟩
    · rw [named.align_eq, named.part_eq, lies.unit_eq]
    · rw [named.align_eq]
      exact lies.align_le
    · rw [named.dims_eq, named.part_eq, lies.lengths_eq]
    · rw [named.offset_eq]
      exact lies.offset_le
    · rw [named.align_eq]
      exact lies.aligned indices start (named.begins.mp begins)
    · rw [named.part_eq]
      exact lies.inside indices start (named.begins.mp begins)
  apart := by
    intro l first m second indices indices' x y begins begins' differ live
    obtain ⟨l, here, rfl⟩ := List.mem_map.mp first
    obtain ⟨m, there, rfl⟩ := List.mem_map.mp second
    rw [(renames l here).part_eq, (renames m there).part_eq] at live ⊢
    refine h.apart l here m there indices indices' x y ((renames l here).begins.mp begins)
      ((renames m there).begins.mp begins') (fun equal => differ ?_) live
    obtain ⟨slot, same⟩ := Prod.mk.inj equal
    rw [(distinct l m).mpr slot, same]

/-- A legend that says the same about the leaves of a region. -/
theorem Arranged.congr (h : g.Arranged size align leaves)
    (same : ∀ leaf ∈ leaves, g'.part leaf.slot = g.part leaf.slot ∧ g.SameDims g' leaf) :
    g'.Arranged size align leaves := by
  have renamed := h.rename id
    (fun leaf member => ⟨rfl, rfl, (same leaf member).1, map_dim_congr (same leaf member).2⟩)
    (fun _ _ => Iff.rfl)
  rwa [List.map_id] at renamed

/-- A region seen from outside of a step that is not into an array. -/
theorem Arranged.under (h : g.Arranged size align leaves) {step : Step}
    (plain : ∀ length, step ≠ .element length)
    (same : ∀ leaf ∈ leaves, g'.part leaf.slot = (g.part leaf.slot).under step ∧
      g.SameDims g' leaf) : g'.Arranged size align leaves where
  lies := by
    intro leaf member
    obtain ⟨part, dims⟩ := same leaf member
    have lies := h.lies leaf member
    refine ⟨?_, lies.align_le, ?_, lies.offset_le, fun indices start begins => ?_,
      fun indices start begins => ?_⟩
    · rw [part, Part.unit_under, lies.unit_eq]
    · rw [part, map_dim_congr dims, lies.lengths_eq, Part.path_under]
      cases step with
      | element length => exact absurd rfl (plain length)
      | field index => rfl
      | tag => rfl
      | arm index => rfl
    · exact lies.aligned indices start ((begins_congr dims).mp begins)
    · rw [part, Part.size_under]
      exact lies.inside indices start ((begins_congr dims).mp begins)
  apart := by
    intro l first m second indices indices' x y begins begins' differ live
    rw [(same l first).1, (same m second).1, Part.size_under, Part.size_under]
    rw [(same l first).1, (same m second).1, Part.path_under, Part.path_under] at live
    refine h.apart l first m second indices indices' x y
      ((begins_congr (same l first).2).mp begins) ((begins_congr (same m second).2).mp begins')
      differ fun exclusive => live ?_
    have further := exclusive.under step 0
    cases step with
    | element length => exact absurd rfl (plain length)
    | field index => exact further
    | tag => exact further
    | arm index => exact further

/-! ## Regions put together -/

/-- A leaf moved up by a distance. -/
abbrev moved (distance : Nat) (leaf : Leaf) : Leaf := leaf.moveBy .unbounded distance

theorem begins_moved {distance : Nat} {indices : List Nat} {start : Nat} :
    g.Begins (moved distance leaf) indices start ↔
      ∃ x, g.Begins leaf indices x ∧ start = distance + x := by
  constructor
  · rintro ⟨n, walk, rfl⟩
    refine ⟨leaf.offset + n, ⟨n, walk, rfl⟩, ?_⟩
    show leaf.offset + distance + n = _
    omega
  · rintro ⟨_, ⟨n, walk, rfl⟩, rfl⟩
    refine ⟨n, walk, ?_⟩
    show _ = leaf.offset + distance + n
    omega

/-- Items at offsets: two of them are one behind the other, or in different arms. -/
def Away (g : Legend) (p q : Nat × Item) : Prop :=
  p.1 + p.2.size ≤ q.1 ∨ q.1 + q.2.size ≤ p.1 ∨
    ∀ l ∈ p.2.leaves, ∀ m ∈ q.2.leaves, g.Divided l m

/-- The leaves of items at offsets. -/
def mergedLeaves (pieces : List (Nat × Item)) : List Leaf :=
  pieces.flatMap fun p => p.2.leaves.map (moved p.1)

/-- An item that is arranged at an aligned offset in a region. -/
structure Fits (g : Legend) (size : Nat) (align : Alignment) (p : Nat × Item) : Prop where
  arranged : g.Arranged p.2.size p.2.align p.2.leaves
  align_le : p.2.align ≤ align
  aligned : p.2.align.bytes ∣ p.1
  inside : p.1 + p.2.size ≤ size

theorem Fits.lies {p : Nat × Item} (h : g.Fits size align p) (member : leaf ∈ p.2.leaves) :
    g.Lies size align (moved p.1 leaf) where
  unit_eq := (h.arranged.lies leaf member).unit_eq
  align_le := Nat.le_trans (h.arranged.lies leaf member).align_le h.align_le
  lengths_eq := (h.arranged.lies leaf member).lengths_eq
  offset_le := by
    have le := (h.arranged.lies leaf member).offset_le
    have inside := h.inside
    show leaf.offset + p.1 ≤ size
    omega
  aligned := by
    intro indices start begins
    obtain ⟨x, within, rfl⟩ := begins_moved.mp begins
    have lies := h.arranged.lies leaf member
    exact Nat.dvd_add (Nat.dvd_trans (Alignment.bytes_dvd_of_le lies.align_le) h.aligned)
      (lies.aligned indices x within)
  inside := by
    intro indices start begins
    obtain ⟨x, within, rfl⟩ := begins_moved.mp begins
    have ends := (h.arranged.lies leaf member).inside indices x within
    have inside := h.inside
    show p.1 + x + (g.part leaf.slot).size ≤ size
    omega

theorem Away.apart {p q : Nat × Item} (away : g.Away p q) (first : g.Fits size align p)
    (second : g.Fits size align q) (here : l ∈ p.2.leaves) (there : m ∈ q.2.leaves) :
    g.Apart (moved p.1 l) (moved q.1 m) := by
  obtain before | after | divided := away
  · intro indices indices' _ _ begins begins' _ _
    obtain ⟨x, within, rfl⟩ := begins_moved.mp begins
    obtain ⟨y, _, rfl⟩ := begins_moved.mp begins'
    have ends := (first.arranged.lies l here).inside indices x within
    left
    show p.1 + x + (g.part l.slot).size ≤ q.1 + y
    omega
  · intro indices indices' _ _ begins begins' _ _
    obtain ⟨x, _, rfl⟩ := begins_moved.mp begins
    obtain ⟨y, within, rfl⟩ := begins_moved.mp begins'
    have ends := (second.arranged.lies m there).inside indices' y within
    right
    show q.1 + y + (g.part m.slot).size ≤ p.1 + x
    omega
  · have apart : g.Divided (moved p.1 l) (moved q.1 m) := divided l here m there
    exact apart.apart

theorem Fits.apart {p : Nat × Item} (h : g.Fits size align p) (here : l ∈ p.2.leaves)
    (there : m ∈ p.2.leaves) : g.Apart (moved p.1 l) (moved p.1 m) := by
  intro indices indices' _ _ begins begins' differ live
  obtain ⟨x, first, rfl⟩ := begins_moved.mp begins
  obtain ⟨y, second, rfl⟩ := begins_moved.mp begins'
  have apart := h.arranged.apart l here m there indices indices' x y first second differ live
  show p.1 + x + (g.part l.slot).size ≤ p.1 + y ∨ p.1 + y + (g.part m.slot).size ≤ p.1 + x
  omega

/-- Items that fit into a region, and are away from one another, are arranged in it. -/
theorem Arranged.merge {pieces : List (Nat × Item)} (each : ∀ p ∈ pieces, g.Fits size align p)
    (away : pieces.Pairwise g.Away) : g.Arranged size align (mergedLeaves pieces) where
  lies := by
    intro leaf member
    obtain ⟨p, piece, member⟩ := List.mem_flatMap.mp member
    obtain ⟨leaf, listed, rfl⟩ := List.mem_map.mp member
    exact (each p piece).lies listed
  apart := by
    intro l first m second
    obtain ⟨p, piece, first⟩ := List.mem_flatMap.mp first
    obtain ⟨q, piece', second⟩ := List.mem_flatMap.mp second
    obtain ⟨l, here, rfl⟩ := List.mem_map.mp first
    obtain ⟨m, there, rfl⟩ := List.mem_map.mp second
    have pairs : pieces.Pairwise fun p q => ∀ l ∈ p.2.leaves, ∀ m ∈ q.2.leaves,
        g.Apart (moved p.1 l) (moved q.1 m) :=
      away.imp_of_mem fun piece piece' away l here m there =>
        away.apart (each _ piece) (each _ piece') here there
    have all := List.Pairwise.forall_of_forall_of_flip
      (fun p piece l here m there => (each p piece).apart here there) pairs
      (pairs.imp fun both l here m there => (both m there l here).symm)
    exact all piece piece' l here m there

/-! ## A region repeated -/

/-- A leaf in one more array. -/
def wrapped (id : PackId) (leaf : Leaf) : Leaf := { leaf with packs := id :: leaf.packs }

theorem begins_wrapped {id : PackId} {indices : List Nat} {start : Nat}
    (same : g.SameDims g' leaf) (h : g'.Begins (wrapped id leaf) indices start) :
    ∃ k inner x, indices = k :: inner ∧ k < (g'.dim id).length ∧ g.Begins leaf inner x ∧
      start = k * (g'.dim id).stride + x := by
  obtain ⟨n, walk, rfl⟩ := h
  rw [wrapped, List.map_cons, map_dim_congr same] at walk
  cases walk with
  | @cons _ _ k inner n inside walk =>
    refine ⟨k, inner, leaf.offset + n, rfl, inside, ⟨n, walk, rfl⟩, ?_⟩
    show leaf.offset + (k * (g'.dim id).stride + n) = _
    omega

/-- Elements of an array at different indices are one stride apart. -/
theorem stride_le {stride k k' x size : Nat} (before : k < k') (inside : x + size ≤ stride) :
    k * stride + x + size ≤ k' * stride := by
  have next := Nat.mul_le_mul_right stride (Nat.succ_le_of_lt before)
  rw [Nat.succ_mul] at next
  omega

/-- A region repeated back to back is arranged, when its size is a multiple of its class. -/
theorem Arranged.repeats {stride length : Nat} {id : PackId} (h : g.Arranged stride align leaves)
    (whole : align.bytes ∣ stride) (pos : 0 < length) (dim : g'.dim id = ⟨stride, length⟩)
    (same : ∀ leaf ∈ leaves, g'.part leaf.slot = (g.part leaf.slot).under (.element length) ∧
      g.SameDims g' leaf) :
    g'.Arranged (stride * length) align (leaves.map (wrapped id)) where
  lies := by
    intro leaf member
    obtain ⟨leaf, listed, rfl⟩ := List.mem_map.mp member
    obtain ⟨part, dims⟩ := same leaf listed
    have lies := h.lies leaf listed
    refine ⟨?_, lies.align_le, ?_, Nat.le_trans lies.offset_le (Nat.le_mul_of_pos_right _ pos),
      fun indices start begins => ?_, fun indices start begins => ?_⟩
    · show leaf.align.bytes = (g'.part leaf.slot).unit
      rw [part, Part.unit_under, lies.unit_eq]
    · show _ = lengths (g'.part leaf.slot).path
      rw [part, wrapped, List.map_cons, List.map_cons, map_dim_congr dims, lies.lengths_eq, dim]
      rfl
    · obtain ⟨k, inner, x, rfl, _, within, rfl⟩ := begins_wrapped dims begins
      rw [dim]
      exact Nat.dvd_add (Nat.dvd_mul_left_of_dvd
        (Nat.dvd_trans (Alignment.bytes_dvd_of_le lies.align_le) whole) k)
        (lies.aligned inner x within)
    · obtain ⟨k, inner, x, rfl, inside, within, rfl⟩ := begins_wrapped dims begins
      rw [dim] at inside ⊢
      show _ + (g'.part leaf.slot).size ≤ _
      rw [part, Part.size_under, Nat.mul_comm stride]
      exact stride_le inside (lies.inside inner x within)
  apart := by
    intro l first m second indices indices' _ _ begins begins' differ live
    obtain ⟨l, here, rfl⟩ := List.mem_map.mp first
    obtain ⟨m, there, rfl⟩ := List.mem_map.mp second
    obtain ⟨k, inner, x, rfl, _, within, rfl⟩ := begins_wrapped (same l here).2 begins
    obtain ⟨k', inner', y, rfl, _, within', rfl⟩ := begins_wrapped (same m there).2 begins'
    change ¬Exclusive (g'.part l.slot).path _ (g'.part m.slot).path _ at live
    show _ + (g'.part l.slot).size ≤ _ ∨ _ + (g'.part m.slot).size ≤ _
    rw [(same l here).1, (same m there).1] at live ⊢
    simp only [dim, Part.size_under]
    obtain before | rfl | after := Nat.lt_trichotomy k k'
    · have := stride_le before ((h.lies l here).inside inner x within)
      exact .inl (by omega)
    · -- in one element of the array, what is apart in the element is apart
      have other : (l.slot, inner) ≠ (m.slot, inner') := fun equal => differ (by
        obtain ⟨slot, indices⟩ := Prod.mk.inj equal
        rw [indices]
        exact congrArg (·, k :: inner') slot)
      have inside := h.apart l here m there inner inner' x y within within' other
        fun exclusive => live (exclusive.under (.element length) k)
      omega
    · have := stride_le after ((h.lies m there).inside inner' y within')
      exact .inr (by omega)

end Legend

end PackedLayout
