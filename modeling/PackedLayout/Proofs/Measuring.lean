import Mathlib.Algebra.GroupWithZero.Nat
import PackedLayout.Proofs.Anew
import PackedLayout.Proofs.Finishing
import PackedLayout.Proofs.Framing

/-!
# Elements that are measured

The element of a dynamic array is laid out in a draft that is thrown away, and only its size and its
largest class are kept. An array of fixed length lays out the same element and adds one pack for
each class of it.

- `Draft.kinds_putArray`: the packs that an array adds have the sizes and classes of its element;
- `layOutArray_measured`: they are those that were measured, behind any draft;
- `TrailingField.Tells`: an entry that tells the sum of the sizes and the largest class;
- `layOutArray_tells`: what was measured tells so of every array of the element, in any engine.
-/

namespace PackedLayout

variable {w : Width} {span : Span} {counts : UnitCounts} {packs : Array Pack} {draft after : Draft}

/-! ## The packs of an array -/

/-- What a pack tells of its elements. -/
def Pack.kind (pack : Pack) : Nat × Alignment := (pack.elementSize, pack.align)

theorem kinds_adopt (id : PackId) (packs : Array Pack) (leaf : Leaf) :
    (Draft.adopt id packs leaf).map Pack.kind = packs.map Pack.kind := by
  refine Array.ext_getElem? fun i => ?_
  rw [Array.getElem?_map, Array.getElem?_map, getElem?_adopt]
  split
  · rw [Option.map_map]
    rfl
  · rfl

theorem kinds_adopted (packs : Array Pack) (pack : Pack) (leaves : List Leaf) :
    (adopted packs pack leaves).toList.map Pack.kind =
      packs.toList.map Pack.kind ++ [pack.kind] := by
  have keeps (id : PackId) (table : Array Pack) :
      (leaves.foldl (Draft.adopt id) table).map Pack.kind = table.map Pack.kind := by
    induction leaves generalizing table with
    | nil => rfl
    | cons leaf rest ih => rw [List.foldl_cons, ih, kinds_adopt]
  rw [adopted, ← Array.toList_map, keeps]
  simp

/-- The sizes of some classes, but for the empty ones. -/
def UnitCounts.kinds (w : Width) (counts : UnitCounts) (classes : List Alignment) :
    List (Nat × Alignment) :=
  classes.flatMap fun a => if counts.bytes w a = 0 then [] else [(counts.bytes w a, a)]

namespace Draft

/-- The packs of a draft as they tell of their elements. -/
def kinds (draft : Draft) : List (Nat × Alignment) := draft.packs.toList.map Pack.kind

theorem kinds_putPack {length size : Nat} {a : Alignment} {leaves : List Leaf}
    (put : draft.putPack w span length a size leaves = .ok after) :
    after.kinds = draft.kinds ++ if size = 0 then [] else [(size, a)] := by
  unfold putPack at put
  split at put
  · rename_i empty
    cases put
    rw [if_pos empty, List.append_nil]
  · rename_i nonempty
    split at put
    · contradiction
    · rename_i total _
      obtain ⟨_, same⟩ := (ensures_put w span _ _).of_ok put
      rw [if_neg nonempty, same]
      exact kinds_adopted draft.packs ⟨total, size, length, a, none⟩ leaves

/-- An array adds a pack for every class of its element. -/
theorem kinds_putArray {length : Nat} {element : PerClass Zone}
    (counted : footprint? w element = some counts)
    (put : draft.putArray w span length element = .ok after) :
    after.kinds = draft.kinds ++ counts.kinds w Alignment.descending := by
  unfold putArray at put
  rw [counted] at put
  dsimp only at put
  generalize Alignment.descending = classes at put ⊢
  induction classes generalizing draft with
  | nil =>
    cases put
    exact (List.append_nil _).symm
  | cons a rest ih =>
    rw [List.foldlM_cons, bind_eq_ok] at put
    obtain ⟨next, first, put⟩ := put
    rw [ih put, kinds_putPack first, List.append_assoc]
    rfl

end Draft

/-! ## What was measured -/

/-- The entry tells the sum of the sizes of some packs, and their largest class. -/
structure TrailingField.Tells (entry : TrailingField) (own : List Pack) : Prop where
  elementSize : entry.elementSize = (own.map (·.elementSize)).sum
  attained : ∃ pack ∈ own, pack.align = entry.align
  largest : ∀ pack ∈ own, pack.align ≤ entry.align

namespace UnitCounts

theorem mem_kinds {classes : List Alignment} {size : Nat} {a : Alignment} :
    (size, a) ∈ counts.kinds w classes ↔
      a ∈ classes ∧ counts.bytes w a ≠ 0 ∧ size = counts.bytes w a := by
  unfold kinds
  rw [List.mem_flatMap]
  constructor
  · rintro ⟨b, member, held⟩
    split at held
    · contradiction
    · rename_i nonempty
      cases List.mem_singleton.mp held
      exact ⟨member, nonempty, rfl⟩
  · rintro ⟨member, nonempty, rfl⟩
    exact ⟨a, member, by simp [nonempty]⟩

/-- Empty classes add nothing to the sum. -/
theorem sum_kinds (counts : UnitCounts) (w : Width) (classes : List Alignment) :
    ((counts.kinds w classes).map Prod.fst).sum = (classes.map (counts.bytes w)).sum := by
  induction classes with
  | nil => rfl
  | cons a rest ih =>
    rw [kinds, List.flatMap_cons, List.map_append, List.sum_append, List.map_cons, List.sum_cons]
    refine congrArg₂ (· + ·) ?_ ih
    split
    · rename_i empty
      exact empty.symm
    · exact Nat.add_zero _

/-- Counts that are exact are told by packs of their sizes and classes. -/
theorem Exact.tells (exact_ : counts.Exact w) {align : Alignment}
    (largest : counts.largest? = some align) {own : List Pack}
    (kinds : own.map Pack.kind = counts.kinds w Alignment.descending) (name : String) :
    (⟨name, counts.totalBytes w, align⟩ : TrailingField).Tells own := by
  have nonempty {a : Alignment} : counts.bytes w a ≠ 0 ↔ 0 < counts.get a := by
    rw [exact_.bytes, bytes_unbounded, ← Nat.pos_iff_ne_zero,
      Nat.mul_pos_iff_of_pos_right a.bytes_pos]
  constructor
  · have sizes : own.map (·.elementSize) = (counts.kinds w Alignment.descending).map Prod.fst := by
      rw [← kinds, List.map_map]
      rfl
    show counts.totalBytes w = _
    rw [sizes, sum_kinds, exact_.totalBytes, totalBytes_unbounded]
    simp [Alignment.descending, exact_.bytes]
  · have held := List.find?_some largest
    have member : (counts.bytes w align, align) ∈ own.map Pack.kind := by
      rw [kinds, mem_kinds]
      exact ⟨align.mem_descending, nonempty.mpr (by simpa using held), rfl⟩
    obtain ⟨pack, listed, same⟩ := List.mem_map.mp member
    exact ⟨pack, listed, congrArg Prod.snd same⟩
  · intro pack listed
    have member : pack.kind ∈ own.map Pack.kind := List.mem_map_of_mem listed
    rw [kinds, Pack.kind, mem_kinds] at member
    exact Alignment.le_of_find?_descending largest (by simpa using nonempty.mp member.2.1)

end UnitCounts

/-! ## Elements in a draft and on their own -/

section Elements

variable {setting : Setting} {struct : StructLayout} {layOut : TypeLayout} {element : TypeId}
  {part inner : Draft} {cache cache' : Cache} {r : UnitCounts × Array Warning}

/-- There is nothing behind an empty body yet. -/
theorem Draft.join?_empty (room : draft.slots ≤ maxSlots) :
    Draft.join? w { draft with container := .emptyBody } .empty =
      some { draft with container := .emptyBody } := by
  refine (if_pos room).trans ?_
  show (Container.emptyBody.join? w _ .emptyBody).map _ = _
  rw [Container.Clear.body.join?_self]
  simp [joined, empty, copied]

/-- An element has the same sizes behind a draft as on its own. -/
theorem footprint?_of_framed (framed : FramedTypes w layOut) (room : draft.slots ≤ maxSlots)
    (alone : (layOut element .empty cache).1 = .ok part)
    (inside : (layOut element { draft with container := .emptyBody } cache).1 = .ok inner) :
    footprint? w inner.container.zones = footprint? w part.container.zones := by
  have alone := finished_eq_some.mpr (Prod.ext alone rfl)
  have framed := framed { draft with container := .emptyBody } element
  have joins := framed.joins .empty cache
  rw [Draft.join?_empty room, Option.bind_some, finished_eq_some.mpr (Prod.ext inside rfl), alone,
    Option.bind_some] at joins
  obtain ⟨now, joined, same⟩ := Option.map_eq_some_iff.mp joins.symm
  obtain rfl : now = inner := congrArg Prod.fst same
  obtain ⟨_, container, behind, rfl⟩ := Draft.join?_eq_some.mp joined
  cases body : part.container with
  | arm items =>
    have kind := framed.kind _ _ _ alone
    rw [body] at kind
    contradiction
  | body zones =>
    rw [body, Container.join?_body] at behind
    cases behind
    exact Draft.footprint?_rename _ zones

theorem elementFootprint_eq_ok :
    (elementFootprint setting struct element cache).1 = .ok r ↔
      ∃ part, (layOutNode setting struct element .empty cache).1 = .ok part ∧
        footprint? setting.width part.container.zones = some r.1 ∧ part.warnings = r.2 := by
  unfold elementFootprint
  rw [run_bind_eq_ok]
  refine exists_congr fun part => and_congr_right fun _ => ?_
  cases footprint? setting.width part.container.zones with
  | none => exact ⟨nofun, fun ⟨absent, _⟩ => absurd absent nofun⟩
  | some counts =>
    constructor
    · intro done
      cases done
      exact ⟨rfl, rfl⟩
    · rintro ⟨counted, warned⟩
      obtain ⟨rfl⟩ := counted
      obtain ⟨_, _⟩ := r
      exact congrArg _ (congrArg _ warned)

/-- An element is measured alike in every engine if its structs are made anew. -/
theorem elementFootprint_anew (element : TypeId) :
    Steady (elementFootprint setting (anew setting) element) :=
  agree_elementFootprint fun _ _ _ _ _ _ _ => .inr ⟨rfl, trivial, fun _ _ => trivial⟩

/-- What an element is measured to is exact. -/
theorem exact_of_elementFootprint
    (measured : (elementFootprint setting (anew setting) element cache).1 = .ok r) :
    r.1.Exact setting.width := by
  rw [(elementFootprint_anew element).run_eq .empty cache] at measured
  obtain ⟨part, laid, counted, _⟩ := elementFootprint_eq_ok.mp measured
  obtain ⟨shape, _, grown⟩ := (keeps_layOutNode (finds_anew setting) element .empty
    (Nat.zero_le _) .empty nofun).2.of_ok laid
  exact (footprint?_spec (grown.body rfl).1 counted).1

/-- An engine in which a type may be laid out: its templates are certified, and the structs that are
underway lead to those that the type mentions. -/
structure Cache.Admits (setting : Setting) (depth : Nat) (id : TypeId) (cache : Cache) : Prop where
  certified : cache.Certified setting
  room : Trail setting.schema depth cache.underway
  leads : ∀ name, Mentions setting.schema id name → setting.schema.IsStruct name →
    LeadsTo setting.schema cache.underway name

/-- An engine between two roots admits every type. -/
theorem Engine.Certified.admits {engine : Engine} (h : engine.Certified) (id : TypeId) :
    engine.cache.Admits engine.setting engine.setting.schema.declarations.length id where
  certified := h.cache
  room := h.idle ▸ trail_nil _
  leads := fun _ _ _ => h.idle ▸ nofun

/-- What an element was measured to tells of the packs that an array of the element adds itself,
which come behind those inside of the element. -/
theorem layOutArray_tells {depth length : Nat} {align : Alignment}
    (measured : (elementFootprint setting (anew setting) element cache').1 = .ok r)
    (largest : r.1.largest? = some align) (name : String)
    (admits : cache.Admits setting depth element) (room : draft.slots ≤ maxSlots)
    (done : (layOutArray setting.width span (layOutNode setting (template setting depth)) element
      length draft cache).1 = .ok after) :
    ∃ inner, (layOutNode setting (template setting depth) element
        { draft with container := .emptyBody } cache).1 = .ok inner ∧
      (⟨name, r.1.totalBytes setting.width, align⟩ : TrailingField).Tells
        (after.packs.toList.drop inner.packs.size) := by
  obtain ⟨inner, laid, done⟩ := run_bind_eq_ok.mp done
  have put : Draft.putArray setting.width span length inner.container.zones
    { inner with container := draft.container } = .ok after := done
  refine ⟨inner, laid, (exact_of_elementFootprint measured).tells largest ?_ name⟩
  -- the engine lays the element out as it is laid out with structs made anew
  have beside : (layOutNode setting (anew setting) element { draft with container := .emptyBody }
      cache').1 = .ok inner := by
    have alike : FoundAlike setting.schema (Certifies setting cache.underway) (fun _ => True)
        (template setting depth) (anew setting) element := fun name mentions isStruct span =>
      agree_template_anew span admits.room (admits.leads name mentions isStruct)
    exact ((agree_layOutType setting.maxDepth _ alike).alike ⟨admits.certified, rfl⟩).ok laid |>.1
  obtain ⟨part, alone, counted, _⟩ := elementFootprint_eq_ok.mp measured
  have same := footprint?_of_framed (framed_layOutType setting _ setting.maxDepth) room alone beside
  have kinds : after.kinds = inner.kinds ++ r.1.kinds setting.width Alignment.descending :=
    @Draft.kinds_putArray _ _ _ { inner with container := draft.container } _ _ _
      (same.trans counted) put
  have behind : inner.packs.size = inner.kinds.length := by
    simp [Draft.kinds]
  rw [List.map_drop, behind]
  exact (congrArg (List.drop inner.kinds.length) kinds).trans List.drop_left

end Elements

end PackedLayout
