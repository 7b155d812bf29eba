import PackedLayout.Proofs.Leveling

/-!
# Storage without waste

Where the search degrades no class, the storage is what the search asked for and has no waste:

- `Even.endsAt_exact`, `Even.endsAt_start`, `Even.endsAt_total`: every target that a plan without
  degraded classes sets is one that the arms can end a zone on exactly;
- `place_of_search`: placing the fields follows the search zone by zone;
- `resolution_without_waste`: the storage is as large as its largest arm, and every arm tiles its
  own part of it.
-/

namespace PackedLayout

variable {w : Width} {limit total : Nat} {zone : Alignment} {zones : List Alignment}
  {arms : List Arm}

namespace Storage.Even

variable {s : Storage}

/-! ## Where zones can end -/

/-- A zone that no arm has to put a field into can be left empty. -/
theorem endsAt_start (even : Even total arms (zone :: zones) s)
    (none : ∀ now ∈ s.arms, s.start ≤ now.required → exactSize (now.mandatory zone) = 0) :
    ZoneStep.EndsAt zone s.start s.start s.arms where
  forward := Nat.le_refl _
  aligned := even.aligned zone List.mem_cons_self
  reached := .inl rfl
  canFill := by
    intro now member reach
    rw [Nat.sub_self]
    exact Arm.canFill_zero (none now member reach)

/-- Above the largest arm no arm has a field left. -/
theorem endsAt_full (even : Even total arms (zone :: zones) s)
    (searchable : Searchable w limit total arms) (full : s.start = total) :
    ZoneStep.EndsAt zone s.start s.start s.arms := by
  apply even.endsAt_start
  intro now member _
  have left := even.pending_le searchable member
  have part := now.mandatory_le_pending zone
  omega

/-- Every arm can end the last zone at its own size. -/
theorem endsAt_total (even : Even total arms [.one] s)
    (searchable : Searchable w limit total arms) :
    ZoneStep.EndsAt .one s.start total s.arms where
  forward := even.start_le
  aligned := Nat.one_dvd total
  reached := by
    obtain zero | ⟨arm, listed, same⟩ := searchable.attained
    · have := even.start_le
      exact .inl (by omega)
    · obtain ⟨k, inside, rfl⟩ := List.mem_iff_getElem.mp listed
      have there : k < s.arms.length := even.length_eq ▸ inside
      have own := even.each k _ _ (List.getElem?_eq_getElem inside) (List.getElem?_eq_getElem there)
      refine .inr ⟨s.arms[k], List.getElem_mem there, ?_⟩
      rw [own.same]
      exact Nat.le_of_eq same.symm
  canFill := by
    intro now member reach
    have le := even.required_le searchable member
    have level := even.level member
    obtain ⟨_, _, _, _, own⟩ := even.origin member
    have all : now.mandatory .one = now.pending :=
      List.filter_eq_self.mpr fun item left => by
        simpa using List.mem_singleton.mp (own.within item left)
    rw [Arm.Level] at level
    refine ⟨0, SubsetSum.zero _, ?_⟩
    rw [all]
    omega

/-- The arms keep their order. -/
theorem largestArmFirst (even : Even total arms zones s)
    (searchable : Searchable w limit total arms) : LargestArmFirst s.arms := by
  apply List.pairwise_iff_getElem.mpr
  intro i j hi hj before
  have ai := even.length_eq ▸ hi
  have aj := even.length_eq ▸ hj
  have first := even.each i _ _ (List.getElem?_eq_getElem ai) (List.getElem?_eq_getElem hi)
  have second := even.each j _ _ (List.getElem?_eq_getElem aj) (List.getElem?_eq_getElem hj)
  rw [first.same, second.same]
  exact List.pairwise_iff_getElem.mp searchable.ordered i j ai aj before

/-- Every arm can end a zone on a boundary that the search finds. -/
theorem endsAt_exact (even : Even total arms (zone :: zones) s)
    (searchable : Searchable w limit total arms) {least stop : Nat} (start_le : s.start ≤ least)
    (found : exactBoundary? w zone s.start least s.arms = some stop) :
    ZoneStep.EndsAt zone s.start stop s.arms ∧ stop ≤ total := by
  have ordered := even.largestArmFirst searchable
  obtain ⟨above, aligned, ⟨largest, listed, reach⟩, each⟩ :=
    exactBoundary?_sound (even.aligned zone List.mem_cons_self) start_le ordered found
  refine ⟨⟨by omega, aligned, .inr ⟨largest, listed, reach⟩, fun now member reach => ?_⟩, ?_⟩
  · exact Arm.contains_zoneSums (even.below member) (even.fits_pending searchable member)
      (each now member reach)
  · exact Nat.le_trans reach (even.required_le searchable listed)

/-- The zones still to fill are those up to the next one. -/
theorem mem_iff_le (even : Even total arms (zone :: zones) s) {a : Alignment} :
    a ∈ zone :: zones ↔ a ≤ zone :=
  Alignment.mem_iff_le_of_order even.order

/-- Once the largest arm is exhausted, the zones that are left stay empty. -/
theorem placeRest (even : Even total arms zones s) (searchable : Searchable w limit total arms)
    (full : s.start = total) (target : Boundaries)
    (hits : ∀ zone ∈ zones, target.boundary zone = total) :
    ∃ last, zones.foldlM (Storage.placeZone w limit target) s = .ok last ∧
      Even total arms [] last ∧ last.start = total ∧
      ∀ a, last.ends.boundary a = if a ∈ zones then total else s.ends.boundary a := by
  induction zones generalizing s with
  | nil => exact ⟨s, rfl, even, full, fun a => by simp⟩
  | cons zone rest ih =>
    obtain ⟨next, placed, start, ends, kept⟩ := even.placeZone searchable even.start_le
      (even.endsAt_full searchable full) target (full ▸ hits zone List.mem_cons_self)
    rw [full] at start ends
    obtain ⟨last, done, kept, top, final⟩ :=
      ih kept start fun other later => hits other (List.mem_cons_of_mem _ later)
    refine ⟨last, ?_, kept, top, fun a => ?_⟩
    · rw [List.foldlM_cons, placed]
      exact done
    · rw [final a, ends, Boundaries.boundary_setBoundary]
      by_cases here : zone = a
      · simp [here]
      · simp [here, Ne.symm here]

end Storage.Even

namespace ZonePlan

variable {p next : Progress} {plan : ZonePlan}

/-! ## What the search keeps -/

theorem close_eq_ok {boundary : Nat} :
    p.close w limit zone boundary = .ok next ↔
      ∃ step, ZoneStep.fill w limit zone p.reached boundary p.arms = .ok step ∧
        next = ⟨step.after, step.stop, { p.plan with
          boundaries := p.plan.boundaries.setBoundary zone boundary
          steps := p.plan.steps ++ [step] }⟩ := by
  unfold Progress.close
  rw [bind_eq_ok]
  constructor
  · rintro ⟨step, filled, h⟩
    exact ⟨step, filled, (Except.ok.inj h).symm⟩
  · rintro ⟨step, filled, rfl⟩
    exact ⟨step, filled, rfl⟩

/-- One class of a search: the plan is complete early, or the zone is closed at an exact boundary,
at a fallback or at once, and the search goes on. -/
theorem search_cons (run : search w limit total (zone :: zones) p = .ok plan) :
    (∃ least, p.leastEnd? w zone = some least ∧ p.plan.skipped = false ∧
      exactBoundary? w zone p.reached least p.arms = some total ∧
      plan = { p.plan with boundaries := p.plan.boundaries.endFrom zone total }) ∨
    (∃ least boundary next, p.leastEnd? w zone = some least ∧ p.plan.skipped = false ∧
      exactBoundary? w zone p.reached least p.arms = some boundary ∧
      p.close w limit zone boundary = .ok next ∧ search w limit total zones next = .ok plan) ∨
    (∃ least next, p.leastEnd? w zone = some least ∧
      { p with plan := p.plan.degrade zone least }.close w limit zone least = .ok next ∧
      search w limit total zones next = .ok plan) ∨
    (∃ next, p.needs w zone = false ∧ p.close w limit zone p.reached = .ok next ∧
      search w limit total zones next = .ok plan) := by
  unfold search at run
  split at run
  · obtain ⟨least, known, run⟩ := bind_eq_ok.mp run
    have known := (ensures_orOverflow _).of_ok known
    dsimp only at run
    split at run
    · rename_i boundary found
      split at found
      · contradiction
      · rename_i searched
        rw [Bool.not_eq_true] at searched
        split at run
        · rename_i early
          rw [early] at found run
          exact .inl ⟨least, known, searched, found, (Except.ok.inj run).symm⟩
        · obtain ⟨next, closed, run⟩ := bind_eq_ok.mp run
          exact .inr (.inl ⟨least, boundary, next, known, searched, found, closed, run⟩)
    · obtain ⟨next, closed, run⟩ := bind_eq_ok.mp run
      exact .inr (.inr (.inl ⟨least, next, known, closed, run⟩))
  · rename_i unneeded
    rw [Bool.not_eq_true] at unneeded
    obtain ⟨next, closed, run⟩ := bind_eq_ok.mp run
    exact .inr (.inr (.inr ⟨next, unneeded, closed, run⟩))

theorem degrade_keeps (zone : Alignment) (fallback : Nat) (plan : ZonePlan) :
    (plan.degrade zone fallback).skipped = plan.skipped ∧
      plan.degraded <+: (plan.degrade zone fallback).degraded ∧
      (plan.degrade zone fallback).boundaries = plan.boundaries := by
  unfold degrade
  split
  · exact ⟨rfl, List.prefix_refl _, rfl⟩
  · exact ⟨rfl, List.prefix_append _ _, rfl⟩

/-- A search only adds degraded classes, and leaves the boundaries of larger classes alone. -/
theorem search_keeps (run : search w limit total zones p = .ok plan) :
    plan.skipped = p.plan.skipped ∧ p.plan.degraded <+: plan.degraded ∧
      ∀ a, (∀ zone ∈ zones ++ [.one], zone < a) →
        plan.boundaries.boundary a = p.plan.boundaries.boundary a := by
  induction zones generalizing p with
  | nil =>
    cases run
    refine ⟨rfl, List.prefix_refl _, fun a above => ?_⟩
    have differ : Alignment.one ≠ a := fun same =>
      Nat.lt_irrefl _ (same ▸ above .one List.mem_cons_self)
    rw [Boundaries.boundary_setBoundary, if_neg differ]
  | cons zone rest ih =>
    have closes {q next : Progress} {boundary : Nat}
        (closed : q.close w limit zone boundary = .ok next)
        (run : search w limit total rest next = .ok plan) :
        plan.skipped = q.plan.skipped ∧ q.plan.degraded <+: plan.degraded ∧
          ∀ a, (∀ other ∈ (zone :: rest) ++ [.one], other < a) →
            plan.boundaries.boundary a = q.plan.boundaries.boundary a := by
      obtain ⟨step, _, rfl⟩ := close_eq_ok.mp closed
      obtain ⟨skipped, degraded, kept⟩ := ih run
      refine ⟨skipped, degraded, fun a above => ?_⟩
      have differ : zone ≠ a := fun same =>
        Nat.lt_irrefl _ (same ▸ above zone List.mem_cons_self)
      rw [kept a fun other later => above other (List.mem_cons_of_mem _ later),
        Boundaries.boundary_setBoundary, if_neg differ]
    obtain ⟨_, _, _, _, rfl⟩ | ⟨_, _, _, _, _, _, closed, run⟩ | ⟨least, _, _, closed, run⟩ |
      ⟨_, _, closed, run⟩ := search_cons run
    · refine ⟨rfl, List.prefix_refl _, fun a above => ?_⟩
      have larger := above zone List.mem_cons_self
      rw [Boundaries.boundary_endFrom, if_neg (Alignment.not_le_of_lt larger)]
    · exact closes closed run
    · obtain ⟨skipped, degraded, kept⟩ := closes closed run
      obtain ⟨searched, noted, same⟩ := degrade_keeps zone least p.plan
      refine ⟨skipped.trans searched, noted.trans degraded, fun a above => ?_⟩
      rw [kept a above]
      exact congrArg (·.boundary a) same
    · exact closes closed run

theorem boundaries_of_close {boundary : Nat} (closed : p.close w limit zone boundary = .ok next) :
    next.plan.boundaries = p.plan.boundaries.setBoundary zone boundary := by
  obtain ⟨_, _, rfl⟩ := close_eq_ok.mp closed
  rfl

/-- A search leaves a zone that it has closed alone. -/
theorem boundary_of_search {boundary : Nat} (smaller : ∀ other ∈ zones ++ [.one], other < zone)
    (closed : next.plan.boundaries = p.plan.boundaries.setBoundary zone boundary)
    (run : search w limit total zones next = .ok plan) :
    plan.boundaries.boundary zone = boundary := by
  rw [(search_keeps run).2.2 zone smaller, closed, Boundaries.boundary_setBoundary, if_pos rfl]

/-- A class that was looked for without success is noted. -/
theorem degraded_degrade {fallback : Nat}
    (searched : (plan.degrade zone fallback).skipped = false) :
    (plan.degrade zone fallback).degraded ≠ [] := by
  unfold degrade at searched ⊢
  split at searched
  · rename_i skipped
    rw [skipped] at searched
    contradiction
  · rename_i looked
    rw [if_neg looked]
    exact List.append_ne_nil_of_right_ne_nil _ (List.cons_ne_nil _ _)

theorem leastEnd?_eq_some {least : Nat} (h : p.leastEnd? w zone = some least) :
    p.reached ≤ least := by
  obtain ⟨_, rfl⟩ := Width.checked_eq_some.mp h
  exact Nat.le_add_right _ _

/-- Where the class is not needed, no arm has to put a field into the zone. -/
theorem mandatory_of_not_needs {s : Storage}
    (searchable : Searchable w limit total arms) (even : s.Even total arms (zone :: zones))
    (unneeded : p.needs w zone = false) (same : p.arms = s.arms) (reached : p.reached = s.start) :
    ∀ now ∈ s.arms, s.start ≤ now.required → exactSize (now.mandatory zone) = 0 := by
  intro now member _
  obtain ⟨arm, listed, required, counts, own⟩ := even.required member
  have kept := List.any_eq_false.mp unneeded now (same ▸ member)
  rw [Bool.and_eq_true, decide_eq_true_eq, decide_eq_true_eq, not_and_or, counts, reached] at kept
  obtain none | ended := kept
  · have collected := searchable.collected arm listed
    rw [collected.counts_eq, Nat.pos_iff_ne_zero, not_not] at none
    have empty := eq_nil_of_exactSize
      (fun item must => collected.whole item (Arm.mem_mandatory.mp must).1) none
    have left : now.mandatory zone = [] := by
      apply List.eq_nil_iff_forall_not_mem.mpr
      intro item must
      obtain ⟨pending, class_⟩ := Arm.mem_mandatory.mp must
      have : item ∈ arm.mandatory zone := Arm.mem_mandatory.mpr ⟨own item pending, class_⟩
      rw [empty] at this
      exact List.not_mem_nil this
    rw [left]
    rfl
  · have level := even.level member
    have part := now.mandatory_le_pending zone
    rw [Arm.Level] at level
    omega

/-! ## Placing what was searched for -/

theorem boundaries_ext {b c : Boundaries} (same : ∀ a, b.boundary a = c.boundary a) : b = c := by
  obtain ⟨⟨_, _, _, _⟩⟩ := b
  obtain ⟨⟨_, _, _, _⟩⟩ := c
  obtain rfl : _ = _ := same .eight
  obtain rfl : _ = _ := same .four
  obtain rfl : _ = _ := same .two
  obtain rfl : _ = _ := same .one
  rfl

/-- The search has got as far as the storage: the same arms have the same fields left. -/
structure Progress.Follows (p : Progress) (s : Storage) : Prop where
  arms : p.arms = s.arms
  reached : p.reached = s.start
  steps : p.plan.steps = s.steps

/-- Closing a zone in the search does what placing the fields in it does, for any targets with the
same boundary. -/
theorem Progress.Follows.close {s : Storage} {stop : Nat} {target : Boundaries}
    (follows : p.Follows s) (aligned : zone.bytes ∣ s.start) (hit : target.boundary zone = stop)
    (closed : p.close w limit zone stop = .ok next) :
    ∃ after, s.placeZone w limit target zone = .ok after ∧ next.Follows after := by
  obtain ⟨step, filled, rfl⟩ := close_eq_ok.mp closed
  rw [follows.arms, follows.reached] at filled
  rw [← hit] at filled
  exact ⟨_, Storage.placeZone_eq_ok.mpr ⟨aligned, step, filled, rfl⟩, rfl, rfl,
    congrArg (· ++ [step]) follows.steps⟩

/-- One class of a search that degrades none: every arm can end the zone where the plan is complete,
or where the zone is closed. -/
theorem search_cons_of_even {s : Storage} {rest : List Alignment}
    (searchable : Searchable w limit total arms) (even : s.Even total arms (zone :: zones))
    (follows : p.Follows s) (run : search w limit total (zone :: rest) p = .ok plan)
    (searched : plan.skipped = false) (undegraded : plan.degraded = []) :
    (ZoneStep.EndsAt zone s.start total s.arms ∧
      plan = { p.plan with boundaries := p.plan.boundaries.endFrom zone total }) ∨
    ∃ boundary next, ZoneStep.EndsAt zone s.start boundary s.arms ∧ boundary ≤ total ∧
      p.close w limit zone boundary = .ok next ∧ search w limit total rest next = .ok plan := by
  have found_ends {least boundary : Nat} (known : p.leastEnd? w zone = some least)
      (found : exactBoundary? w zone p.reached least p.arms = some boundary) :
      ZoneStep.EndsAt zone s.start boundary s.arms ∧ boundary ≤ total := by
    have start_le := leastEnd?_eq_some known
    rw [follows.reached] at found start_le
    rw [follows.arms] at found
    exact even.endsAt_exact searchable start_le found
  -- the ways in which the search may treat the class of the zone
  obtain ⟨least, known, _, found, complete⟩ |
    ⟨least, boundary, next, known, _, found, closed, run⟩ | ⟨least, next, _, closed, run⟩ |
    ⟨next, unneeded, closed, run⟩ := search_cons run
  · exact .inl ⟨(found_ends known found).1, complete⟩
  · obtain ⟨endsAt, le⟩ := found_ends known found
    exact .inr ⟨boundary, next, endsAt, le, closed, run⟩
  · obtain ⟨_, _, rfl⟩ := close_eq_ok.mp closed
    obtain ⟨skipped, degraded, _⟩ := search_keeps run
    rw [undegraded, List.prefix_nil] at degraded
    exact absurd degraded (degraded_degrade (skipped ▸ searched))
  · rw [follows.reached] at closed
    have endsAt := even.endsAt_start (mandatory_of_not_needs searchable even unneeded
      follows.arms follows.reached)
    exact .inr ⟨s.start, next, endsAt, even.start_le, closed, run⟩

/-- Placing the fields keeps up with a search that closes a zone where every arm can end it. -/
theorem Progress.Follows.close_even {s : Storage} {stop : Nat} (follows : p.Follows s)
    (searchable : Searchable w limit total arms) (even : s.Even total arms (zone :: zones))
    (stop_le : stop ≤ total) (endsAt : ZoneStep.EndsAt zone s.start stop s.arms)
    (closed : p.close w limit zone stop = .ok next) {target : Boundaries}
    (hit : target.boundary zone = stop) :
    ∃ after, s.placeZone w limit target zone = .ok after ∧ after.Even total arms zones ∧
      next.Follows after ∧ after.ends = s.ends.setBoundary zone stop := by
  obtain ⟨after, placed, _, ends, kept⟩ := even.placeZone searchable stop_le endsAt target hit
  obtain ⟨_, again, follows⟩ := follows.close (even.aligned zone List.mem_cons_self) hit closed
  obtain rfl := Except.ok.inj (placed.symm.trans again)
  exact ⟨after, placed, kept, follows, ends⟩

/-- Placing the fields comes to an end where every zone ends at its target, the last at `total`. -/
def Reaches (w : Width) (limit total : Nat) (arms : List Arm) (zones : List Alignment)
    (plan : ZonePlan) (s : Storage) : Prop :=
  ∃ last, zones.foldlM (Storage.placeZone w limit plan.boundaries) s = .ok last ∧
    last.Even total arms [] ∧ last.ends.total = total ∧ last.ends = plan.boundaries

/-- Where the largest arm ends a zone, the plan is complete. -/
theorem reaches_of_complete {s : Storage} (searchable : Searchable w limit total arms)
    (even : s.Even total arms (zone :: zones)) (endsAt : ZoneStep.EndsAt zone s.start total s.arms)
    (targets : ∀ a, plan.boundaries.boundary a =
      if a ∈ zone :: zones then total else s.ends.boundary a) :
    Reaches w limit total arms (zone :: zones) plan s := by
  obtain ⟨after, placed, start, ends, kept⟩ := even.placeZone searchable (Nat.le_refl total) endsAt
    plan.boundaries (by rw [targets, if_pos List.mem_cons_self])
  obtain ⟨last, done, reached, _, final⟩ := kept.placeRest searchable start
    plan.boundaries
    (fun a later => by rw [targets, if_pos (List.mem_cons_of_mem _ later)])
  have same : last.ends = plan.boundaries := by
    apply boundaries_ext
    intro a
    rw [final, ends, targets, Boundaries.boundary_setBoundary]
    by_cases here : zone = a
    · simp [here]
    · simp [here, Ne.symm here]
  refine ⟨last, ?_, reached, ?_, same⟩
  · rw [List.foldlM_cons, placed]
    exact done
  · have least : Alignment.one ≤ zone := zone.bytes_pos
    rw [same, Boundaries.total, targets, if_pos (even.mem_iff_le.mpr least)]

/-- With only the last zone to go, the search ends it at the size of the largest arm. -/
theorem reaches_of_last {s : Storage} (searchable : Searchable w limit total arms)
    (even : s.Even total arms [.one]) (follows : p.Follows s)
    (agree : ∀ a ∉ [Alignment.one], p.plan.boundaries.boundary a = s.ends.boundary a)
    (run : search w limit total [] p = .ok plan) : Reaches w limit total arms [.one] plan s := by
  have below : p.plan.boundaries.boundary .two ≤ s.start := by
    rw [agree .two (by decide)]
    exact even.ends_le .two
  have start_le := even.start_le
  have last_eq : max (max total p.reached) (p.plan.boundaries.boundary .two) = total := by
    rw [follows.reached]
    omega
  rw [search, last_eq] at run
  obtain rfl := Except.ok.inj run
  obtain ⟨last, placed, start, ends, kept⟩ := even.placeZone searchable (Nat.le_refl total)
    (even.endsAt_total searchable) (p.plan.boundaries.setBoundary .one total)
    (by rw [Boundaries.boundary_setBoundary, if_pos rfl])
  refine ⟨last, ?_, kept, ?_, boundaries_ext fun a => ?_⟩
  · rw [List.foldlM_cons, placed]
    rfl
  · rw [Boundaries.total, ends, Boundaries.boundary_setBoundary, if_pos rfl]
  · rw [ends, Boundaries.boundary_setBoundary, Boundaries.boundary_setBoundary]
    split
    · rfl
    · rename_i differ
      rw [agree a (by simpa using Ne.symm differ)]

/-- A zone that is closed where every arm can end it is placed as it was searched for, and so are
the others if they are from there on. -/
theorem reaches_of_close {s : Storage} {stop : Nat} (searchable : Searchable w limit total arms)
    (even : s.Even total arms (zone :: zones)) (follows : p.Follows s)
    (agree : ∀ a ∉ zone :: zones, p.plan.boundaries.boundary a = s.ends.boundary a)
    (stop_le : stop ≤ total) (endsAt : ZoneStep.EndsAt zone s.start stop s.arms)
    (closed : p.close w limit zone stop = .ok next) (hit : plan.boundaries.boundary zone = stop)
    (onward : ∀ after, after.Even total arms zones → next.Follows after →
      (∀ a ∉ zones, next.plan.boundaries.boundary a = after.ends.boundary a) →
        Reaches w limit total arms zones plan after) :
    Reaches w limit total arms (zone :: zones) plan s := by
  obtain ⟨after, placed, level, follows, ends⟩ :=
    follows.close_even searchable even stop_le endsAt closed hit
  obtain ⟨last, done, final⟩ := onward after level follows fun a fresh => by
    rw [boundaries_of_close closed, ends, Boundaries.boundary_setBoundary,
      Boundaries.boundary_setBoundary]
    split
    · rfl
    · rename_i differ
      exact agree a (List.not_mem_cons_of_ne_of_not_mem (Ne.symm differ) fresh)
  refine ⟨last, ?_, final⟩
  rw [List.foldlM_cons, placed]
  exact done

/-- Placing the fields follows a search that degrades no class. -/
theorem place_of_search (zones : List Alignment) {s : Storage}
    (searchable : Searchable w limit total arms)
    (even : s.Even total arms (zones ++ [.one])) (follows : p.Follows s)
    (agree : ∀ a ∉ zones ++ [Alignment.one], p.plan.boundaries.boundary a = s.ends.boundary a)
    (run : search w limit total zones p = .ok plan) (searched : plan.skipped = false)
    (undegraded : plan.degraded = []) :
    Reaches w limit total arms (zones ++ [.one]) plan s := by
  induction zones generalizing p s with
  | nil => exact reaches_of_last searchable even follows agree run
  | cons zone rest ih =>
    simp only [List.cons_append] at even agree ⊢
    obtain ⟨endsAt, complete⟩ | ⟨stop, next, endsAt, stop_le, closed, run⟩ :=
      search_cons_of_even searchable even follows run searched undegraded
    · apply reaches_of_complete searchable even endsAt
      intro a
      rw [complete, Boundaries.boundary_endFrom]
      by_cases listed : a ∈ zone :: (rest ++ [.one])
      · rw [if_pos (even.mem_iff_le.mp listed), if_pos listed]
      · rw [if_neg (fun le => listed (even.mem_iff_le.mpr le)), if_neg listed, agree a listed]
    · have hit := boundary_of_search (List.pairwise_cons.mp even.ordered).1
        (boundaries_of_close closed) run
      exact reaches_of_close searchable even follows agree stop_le endsAt closed hit
        fun _ level onward same => ih level onward same run

end ZonePlan

/-! ## Resolving the variant -/

theorem pairwise_byRequirement (arms : List Arm) :
    (byRequirement arms).Pairwise fun a b =>
      b.required < a.required ∨ a.required = b.required ∧ a.index ≤ b.index := by
  have sorted := @List.pairwise_mergeSort Arm (fun a b =>
    b.required < a.required || (a.required == b.required && a.index ≤ b.index))
    (fun a b c => by grind) (fun a b => by grind) arms
  exact sorted.imp fun before => by grind

/-- Arms with indices of their own are ordered in one way. -/
theorem byRequirement_eq {ordered : List Arm} (perm : ordered.Perm arms)
    (apart : (ordered.map (·.index)).Nodup)
    (first : ordered.Pairwise fun a b =>
      b.required < a.required ∨ a.required = b.required ∧ a.index ≤ b.index) :
    byRequirement arms = ordered := by
  have same := (byRequirement_perm arms).trans perm.symm
  refine same.eq_of_pairwise (fun a b here there before after => ?_)
    (pairwise_byRequirement arms) first
  exact List.inj_on_of_nodup_map apart (same.mem_iff.mp here) there (by omega)

theorem largestArmFirst_byRequirement (arms : List Arm) :
    LargestArmFirst (byRequirement arms) :=
  (pairwise_byRequirement arms).imp fun before => by omega

theorem searchable_of_ordered {largest : Arm} {others : List Arm}
    (collected : ∀ arm ∈ largest :: others, arm.Collected w)
    (ordered : LargestArmFirst (largest :: others)) (small : largest.required ≤ limit) :
    Searchable w limit largest.required (largest :: others) where
  collected := collected
  ordered := ordered
  largest := by
    intro arm member
    obtain rfl | later := List.mem_cons.mp member
    · exact Nat.le_refl _
    · exact (List.pairwise_cons.mp ordered).1 arm later
  attained := .inr ⟨largest, List.mem_cons_self, rfl⟩
  fits := (collected largest List.mem_cons_self).fits
  small := small

theorem searchable_byRequirement {largest : Arm} {rest : List Arm}
    (collected : ∀ arm ∈ arms, arm.Collected w) (order : byRequirement arms = largest :: rest)
    (small : largest.required ≤ limit) :
    Searchable w limit largest.required (largest :: rest) := by
  have ordered := largestArmFirst_byRequirement arms
  rw [order] at ordered
  refine searchable_of_ordered (fun arm member => collected arm ?_) ordered small
  exact (byRequirement_perm arms).mem_iff.mp (order ▸ member)

/-- The size of the largest of some arms that are ordered by size. -/
def largestSize (arms : List Arm) : Nat := (arms.head?.map (·.required)).getD 0

/-- The largest of some arms is as large as the largest size of any. -/
theorem largestSize_byRequirement (arms : List Arm) :
    largestSize (byRequirement arms) = (arms.map (·.required)).foldl max 0 := by
  have perm := byRequirement_perm arms
  have ordered := largestArmFirst_byRequirement arms
  cases order : byRequirement arms with
  | nil =>
    rw [order] at perm
    rw [List.nil_perm.mp perm]
    rfl
  | cons largest rest =>
    rw [order] at perm ordered
    apply Nat.le_antisymm
    · have first : largest ∈ arms := perm.mem_iff.mp List.mem_cons_self
      exact @ZoneStep.le_foldl_max_map _ Arm.required _ _ _ first
    · refine ZoneStep.foldl_max_map_le (Nat.zero_le _) fun arm member => ?_
      obtain rfl | later := List.mem_cons.mp (perm.mem_iff.mpr member)
      · exact Nat.le_refl _
      · exact (List.pairwise_cons.mp ordered).1 arm later

/-- A plan that was searched for, and degrades no class, is followed to its end. -/
theorem reaches_of_plan {plan : ZonePlan} (collected : ∀ arm ∈ arms, arm.Collected w)
    (planned : ZonePlan.ofArms w limit (byRequirement arms) = .ok plan)
    (searched : plan.skipped = false) (undegraded : plan.degraded = []) :
    Searchable w limit (largestSize (byRequirement arms)) (byRequirement arms) ∧
      ZonePlan.Reaches w limit (largestSize (byRequirement arms)) (byRequirement arms)
        Alignment.descending plan { arms := byRequirement arms } := by
  cases order : byRequirement arms with
  | nil =>
    rw [order] at planned
    obtain rfl := Except.ok.inj planned
    have searchable : Searchable w limit 0 [] := by
      refine ⟨?_, List.Pairwise.nil, ?_, .inl rfl, Width.fits_zero w, Nat.zero_le _⟩
      all_goals exact fun _ absent => absurd absent List.not_mem_nil
    refine ⟨searchable, ?_⟩
    obtain ⟨last, done, even, _, final⟩ := (Storage.even_start searchable).placeRest searchable
      rfl .zero (fun zone _ => by cases zone <;> rfl)
    refine ⟨last, done, even, final .one, ZonePlan.boundaries_ext fun a => ?_⟩
    rw [final, if_pos a.mem_descending]
    cases a <;> rfl
  | cons largest rest =>
    rw [order] at planned
    have run : ZonePlan.search w limit largest.required [.eight, .four, .two]
      { arms := largest :: rest, plan := { skipped := limit < largest.required } } = .ok plan :=
      planned
    have skipped := (ZonePlan.search_keeps run).1
    rw [searched] at skipped
    have small : largest.required ≤ limit := Nat.not_lt.mp (of_decide_eq_false skipped.symm)
    have searchable := searchable_byRequirement collected order small
    exact ⟨searchable, ZonePlan.place_of_search [.eight, .four, .two] searchable
      (Storage.even_start searchable) ⟨rfl, rfl, rfl⟩ (fun a _ => by cases a <;> rfl) run searched
      undegraded⟩

/-- Where no class is degraded and the search is not skipped, the storage of a variant is the one
that was searched for: it is as large as the largest arm, and the fields of every arm tile the
storage from its start up to the size of the arm. -/
theorem resolution_without_waste {plan : ZonePlan} (collected : ∀ arm ∈ arms, arm.Collected w)
    (planned : ZonePlan.ofArms w limit (byRequirement arms) = .ok plan)
    (searched : plan.skipped = false) (undegraded : plan.degraded = []) :
    ∃ r, Resolution.ofArms w limit arms = .ok r ∧ r.plan = plan ∧ r.layout = r.target ∧
      r.layout.total = r.required ∧ r.required = largestSize (byRequirement arms) ∧
      (∀ arm ∈ arms, arm.required ≤ r.required) ∧ r.degradations = [] ∧ r.isPerfect = true ∧
      ∀ (k : Nat) arm, (byRequirement arms)[k]? = some arm →
        Tiles 0 (r.storage.placed k) arm.required ∧
          ((r.storage.placed k).map (·.2)).Perm arm.pending := by
  obtain ⟨searchable, last, placed, even, top, ends⟩ :=
    reaches_of_plan collected planned searched undegraded
  have exhausted : ∀ now ∈ last.arms, now.pending = [] := by
    intro now member
    obtain ⟨_, _, _, _, own⟩ := even.origin member
    exact Arm.pending_eq_nil own.within
  have left : last.arms.find? (fun arm => !arm.pending.isEmpty) = none :=
    List.find?_eq_none.mpr fun arm member => by simp [exhausted arm member]
  have storage : Storage.place w limit plan.boundaries (byRequirement arms) = .ok last := by
    unfold Storage.place
    rw [placed]
    simp only [bind, Except.bind, left]
    rfl
  have undegraded : plan.degradations limit (largestSize (byRequirement arms)) ++
      last.padding (largestSize (byRequirement arms)) = [] := by
    rw [ZonePlan.degradations, Storage.padding, searched, undegraded, top]
    simp
  refine ⟨⟨largestSize (byRequirement arms), plan, last, _⟩, ?_, rfl, ends, top, rfl,
    fun arm member => searchable.largest arm ((byRequirement_perm arms).mem_iff.mpr member),
    undegraded, ?_, fun k arm listed => ?_⟩
  · simp only [Resolution.ofArms, planned, bind, Except.bind, storage]
    rfl
  · rw [Resolution.isPerfect, undegraded]
    rfl
  · have inside : k < last.arms.length := by
      rw [even.length_eq]
      exact (List.getElem?_eq_some_iff.mp listed).1
    have own := even.each k arm _ listed (List.getElem?_eq_getElem inside)
    have empty := exhausted _ (List.getElem_mem inside)
    have level := own.level
    have tiles := own.tiles
    have all := own.perm
    have required : last.arms[k].required = arm.required := by rw [own.same]
    have none : exactSize [] = 0 := rfl
    rw [Arm.Level, empty, none, required] at level
    rw [Nat.min_eq_left (by omega)] at tiles
    rw [empty, List.append_nil] at all
    exact ⟨tiles, all⟩

end PackedLayout
