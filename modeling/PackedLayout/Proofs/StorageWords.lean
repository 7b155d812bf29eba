import PackedLayout.Proofs.ZeroWaste

/-!
# Storage in words

Where the arms of a variant fit into words, its storage is made in words as in exact arithmetic,
or it overflows because the exact storage needs more than a word:

- `InWords`: how a run in words ends, given how the exact one does;
- `ZoneStep.fill_inWords`, `Storage.placeZones_inWords`: filling one zone, and all of them;
- `ZonePlan.search_inWords`: a search that overflows is on the way to a storage that does;
- `Resolution.ofArms_inWords`: so the resolution of a variant only overflows for its storage.
-/

namespace PackedLayout

variable {w : Width} {limit start boundary total : Nat} {zone : Alignment}

/-- There is an exact result. In words there is the same, or none, and then the exact one is
large. -/
def InWords? {α : Type} (large : α → Prop) (run exact : Option α) : Prop :=
  ∃ a, exact = some a ∧ (run = some a ∨ run = none ∧ large a)

/-- The exact run ends well. The one in words ends alike, or overflows, and then what the exact run
ends in is large. -/
def InWords {ε α : Type} (overflow : ε) (large : α → Prop) (run exact : Except ε α) : Prop :=
  ∃ a, exact = .ok a ∧ (run = .ok a ∨ run = .error overflow ∧ large a)

section InWords

variable {ε α β : Type} {overflow : ε} {large larger : α → Prop} {later : β → Prop}
  {run exact : Except ε α}

theorem InWords?.orOverflow {run exact : Option α} (h : InWords? large run exact) :
    InWords .overflow large (orOverflow run) (orOverflow exact) := by
  obtain ⟨a, rfl, rfl | ⟨rfl, big⟩⟩ := h
  · exact ⟨a, rfl, .inl rfl⟩
  · exact ⟨a, rfl, .inr ⟨rfl, big⟩⟩

theorem InWords?.map {run exact : Option α} (f : α → β) (h : InWords? large run exact)
    (imp : ∀ a, exact = some a → large a → later (f a)) :
    InWords? later (run.map f) (exact.map f) := by
  obtain ⟨a, rfl, rfl | ⟨rfl, big⟩⟩ := h
  · exact ⟨f a, rfl, .inl rfl⟩
  · exact ⟨f a, rfl, .inr ⟨rfl, imp a rfl big⟩⟩

namespace InWords

theorem pure (a : α) : InWords overflow large (.ok a) (.ok a) := ⟨a, rfl, .inl rfl⟩

theorem mono (h : InWords overflow large run exact)
    (imp : ∀ a, exact = .ok a → large a → larger a) : InWords overflow larger run exact := by
  obtain ⟨a, done, same | ⟨failed, big⟩⟩ := h
  · exact ⟨a, done, .inl same⟩
  · exact ⟨a, done, .inr ⟨failed, imp a done big⟩⟩

theorem bind {next next' : α → Except ε β} (h : InWords overflow large run exact)
    (step : ∀ a, exact = .ok a → InWords overflow later (next a) (next' a))
    (carry : ∀ a b, exact = .ok a → large a → next' a = .ok b → later b) :
    InWords overflow later (run >>= next) (exact >>= next') := by
  obtain ⟨a, done, ran⟩ := h
  obtain ⟨b, done', ran'⟩ := step a done
  refine ⟨b, bind_eq_ok.mpr ⟨a, done, done'⟩, ?_⟩
  obtain rfl | ⟨rfl, big⟩ := ran
  · exact ran'
  · exact .inr ⟨rfl, carry a b done big done'⟩

end InWords

end InWords

/-- A checked number is the exact one, or it is too large for a word. -/
theorem checked_inWords (n : Nat) :
    InWords? (Width.words ≤ ·) (Width.bits64.checked n) (Width.unbounded.checked n) := by
  refine ⟨n, rfl, ?_⟩
  cases checked : Width.bits64.checked n with
  | none => exact .inr ⟨rfl, Width.checked_bits64_eq_none.mp checked⟩
  | some m => exact .inl (congrArg some (Width.eq_of_checked checked))

/-- Rounding up overflows only if the multiple is too large for a word. -/
theorem Alignment.roundUp?_inWords (a : Alignment) (n : Nat) :
    InWords? (Width.words ≤ ·) (a.roundUp? .bits64 n) (a.roundUp? .unbounded n) := by
  refine ⟨(n + (a.bytes - 1)) / a.bytes * a.bytes, rfl, ?_⟩
  unfold roundUp?
  cases checked : Width.bits64.checked (n + (a.bytes - 1)) with
  | none =>
    refine .inr ⟨rfl, ?_⟩
    obtain ⟨count, whole⟩ := a.bytes_dvd_words
    have large := Width.checked_bits64_eq_none.mp checked
    rw [whole, Nat.mul_comm] at large ⊢
    exact Nat.mul_le_mul_right _ ((Nat.le_div_iff_mul_le a.bytes_pos).mpr large)
  | some m =>
    rw [Width.eq_of_checked checked]
    exact .inl rfl

/-! ## Arms -/

namespace Arm

variable {arm after : Arm} {stack : Stack}

/-- What is counted and added up of the arm fits into words. -/
structure Small (arm : Arm) : Prop where
  fits : Width.bits64.Fits (exactSize arm.pending)
  counts : ∀ a, arm.counts.bytes .bits64 a = arm.counts.bytes .unbounded a

theorem Filled.exactSize_eq (filled : Filled zone arm after stack) :
    exactSize arm.pending = stack.height + exactSize after.pending := by
  rw [← exactSize_perm filled.perm, exactSize_append, filled.compact.height]

theorem Filled.small (filled : Filled zone arm after stack) (small : arm.Small) : after.Small where
  fits := by
    have split := filled.exactSize_eq
    exact small.fits.mono (by omega)
  counts := by
    rw [filled.same]
    exact small.counts

theorem fill_exact (limit capacity : Nat) (below : arm.Below zone)
    (fits : w.Fits (exactSize arm.pending)) :
    arm.fill w limit zone capacity = arm.fill .unbounded limit zone capacity := by
  rw [fill_eq, fill_eq, ready_eq_ok below fits, ready_eq_ok below (Width.fits_unbounded _)]

theorem pendingBytes_exact (fits : w.Fits (exactSize arm.pending)) (test : Alignment → Bool) :
    arm.pendingBytes w test = arm.pendingBytes .unbounded test := by
  rw [pendingBytes_eq fits, pendingBytes_eq (Width.fits_unbounded _)]

theorem pendingBytes_le (test : Alignment → Bool) :
    arm.pendingBytes .unbounded test ≤ exactSize arm.pending := by
  rw [pendingBytes_eq (Width.fits_unbounded _)]
  exact exactSum_le_of_sublist (List.filter_sublist.map _)

theorem zoneSums_exact (fits : w.Fits (exactSize arm.pending)) :
    arm.zoneSums w zone = arm.zoneSums .unbounded zone := by
  unfold zoneSums
  rw [pendingBytes_exact fits, pendingBytes_exact fits]

end Arm

/-! ## Zones -/

/-- A zone for arms that fit into words overflows only where its end needs more than a word. -/
theorem ZoneStep.fill_inWords (limit start boundary : Nat) {arms : List Arm}
    (below : ∀ arm ∈ arms, arm.Below zone) (small : ∀ arm ∈ arms, arm.Small) :
    InWords .overflow (Width.words ≤ ·.stop) (ZoneStep.fill .bits64 limit zone start boundary arms)
      (ZoneStep.fill .unbounded limit zone start boundary arms) := by
  have each : ∀ arm ∈ arms, ∃ r, arm.fill .unbounded limit zone (boundary - start) = .ok r ∧
      arm.fill .bits64 limit zone (boundary - start) = .ok r := by
    intro arm member
    obtain ⟨mask, _, filled⟩ := Arm.exists_fill limit (boundary - start) (below arm member)
      (Width.fits_unbounded _)
    have same := Arm.fill_exact limit (boundary - start) (below arm member) (small arm member).fits
    exact ⟨_, filled, same.trans filled⟩
  obtain ⟨results, filled⟩ := exists_forall₂ each
  have exact_ := mapM_eq_ok.mpr (filled.imp fun _ _ h => h.1)
  have inWords := mapM_eq_ok.mpr (filled.imp fun _ _ h => h.2)
  unfold ZoneStep.fill
  rw [bind_eq_of_ok exact_, bind_eq_of_ok inWords]
  apply (Alignment.roundUp?_inWords zone _).orOverflow.bind
  · intro size _
    apply (checked_inWords (start + size)).orOverflow.bind
    · intro stop _
      exact InWords.pure _
    · intro stop step _ large done
      cases done
      exact large
  · intro size step _ large done
    obtain ⟨stop, checked, h⟩ := bind_eq_ok.mp done
    cases checked
    cases h
    exact Nat.le_trans large (Nat.le_add_left _ _)

/-! ## Placing -/

namespace Storage

variable {arms : List Arm} {zones : List Alignment} {s after last : Storage} {target : Boundaries}

/-- Of the targets, only the one of the zone matters. -/
theorem placeZone_congr {other : Boundaries} (same : target.boundary zone = other.boundary zone) :
    s.placeZone w limit target zone = s.placeZone w limit other zone := by
  unfold placeZone
  rw [same]

/-- A zone that is filled makes room for what every arm places in it. -/
theorem placeZone_room (placing : Placing w arms (zone :: zones) s)
    (placed : s.placeZone w limit target zone = .ok after) :
    s.start ≤ after.start ∧ ∀ now ∈ s.arms, ∃ next ∈ after.arms,
      s.start + exactSize now.pending ≤ after.start + exactSize next.pending := by
  obtain ⟨_, step, filled, rfl⟩ := placeZone_eq_ok.mp placed
  obtain ⟨sound, here, began, before⟩ := (ZoneStep.ensures_fillZone placing.below).of_ok filled
  obtain ⟨results, later, piles, each⟩ := sound.filled
  rw [before] at each
  have stop := sound.stop_eq
  rw [began] at stop
  refine ⟨by dsimp only; omega, fun now member => ?_⟩
  obtain ⟨r, listed, own⟩ := exists_right_of_mem each member
  refine ⟨r.1, ?_, ?_⟩
  · show r.1 ∈ step.after
    rw [later]
    exact List.mem_map_of_mem listed
  · have le := sound.height_le r.2 (piles ▸ List.mem_map_of_mem listed)
    have split := own.exactSize_eq
    dsimp only
    omega

theorem placeZone_small (placing : Placing w arms (zone :: zones) s)
    (placed : s.placeZone w limit target zone = .ok after) (small : ∀ now ∈ s.arms, now.Small) :
    ∀ next ∈ after.arms, next.Small := by
  obtain ⟨_, step, filled, rfl⟩ := placeZone_eq_ok.mp placed
  obtain ⟨sound, here, began, before⟩ := (ZoneStep.ensures_fillZone placing.below).of_ok filled
  obtain ⟨results, later, _, each⟩ := sound.filled
  rw [before] at each
  intro next member
  change next ∈ step.after at member
  rw [later] at member
  obtain ⟨r, listed, rfl⟩ := List.mem_map.mp member
  obtain ⟨now, there, own⟩ := exists_left_of_mem each listed
  exact own.small (small now there)

theorem placeZone_inWords (placing : Placing .unbounded arms (zone :: zones) s)
    (small : ∀ now ∈ s.arms, now.Small) :
    InWords .overflow (Width.words ≤ ·.start) (s.placeZone .bits64 limit target zone)
      (s.placeZone .unbounded limit target zone) := by
  unfold placeZone
  rw [if_pos (Alignment.isAligned_iff.mpr (placing.aligned zone List.mem_cons_self)),
    if_pos (Alignment.isAligned_iff.mpr (placing.aligned zone List.mem_cons_self))]
  apply (ZoneStep.fill_inWords limit s.start _ placing.below small).bind
  · intro step _
    exact InWords.pure _
  · intro step after _ large done
    cases done
    exact large

/-- Exact placing comes to an end, above everything that was to be placed. -/
theorem Placing.exists_placeZones (target : Boundaries)
    (placing : Placing .unbounded arms zones s) (small : ∀ now ∈ s.arms, now.Small) :
    ∃ last, zones.foldlM (placeZone .unbounded limit target) s = .ok last ∧
      Placing .unbounded arms [] last ∧ s.start ≤ last.start ∧
      ∀ now ∈ s.arms, s.start + exactSize now.pending ≤ last.start := by
  induction zones generalizing s with
  | nil =>
    refine ⟨s, rfl, placing, Nat.le_refl _, fun now member => ?_⟩
    obtain ⟨_, _, within, _⟩ := exists_left_of_mem placing.left member
    have none : exactSize [] = 0 := rfl
    rw [Arm.pending_eq_nil within, none]
    exact Nat.le_refl _
  | cons zone rest ih =>
    obtain ⟨after, placed, _⟩ : InWords _ _ _ (s.placeZone .unbounded limit target zone) :=
      placeZone_inWords placing small
    have still := (ensures_placeZone placing).of_ok placed
    obtain ⟨above, room⟩ := placeZone_room placing placed
    obtain ⟨last, done, ended, higher, all⟩ := ih still (placeZone_small placing placed small)
    refine ⟨last, ?_, ended, Nat.le_trans above higher, fun now member => ?_⟩
    · rw [List.foldlM_cons, bind_eq_of_ok placed]
      exact done
    · obtain ⟨next, listed, le⟩ := room now member
      exact Nat.le_trans le (all next listed)

theorem placeZones_inWords (target : Boundaries) (placing : Placing .unbounded arms zones s)
    (small : ∀ now ∈ s.arms, now.Small) :
    InWords .overflow (Width.words ≤ ·.start) (zones.foldlM (placeZone .bits64 limit target) s)
      (zones.foldlM (placeZone .unbounded limit target) s) := by
  induction zones generalizing s with
  | nil => exact InWords.pure s
  | cons zone rest ih =>
    rw [List.foldlM_cons, List.foldlM_cons]
    have still {after : Storage} (placed : s.placeZone .unbounded limit target zone = .ok after) :
        Placing .unbounded arms rest after ∧ ∀ next ∈ after.arms, next.Small :=
      ⟨(ensures_placeZone placing).of_ok placed, placeZone_small placing placed small⟩
    apply (placeZone_inWords placing small).bind
    · intro after placed
      exact ih (still placed).1 (still placed).2
    · intro after last placed large done
      obtain ⟨again, done', _, above, _⟩ :=
        (still placed).1.exists_placeZones target (still placed).2
      obtain rfl := Except.ok.inj (done.symm.trans done')
      exact Nat.le_trans large above

/-- The storage ends where its last zone does. -/
theorem total_of_placeZones
    (placed : Alignment.descending.foldlM (placeZone w limit target) s = .ok last) :
    last.ends.total = last.start := by
  have order : Alignment.descending = [.eight, .four, .two] ++ [.one] := rfl
  rw [order, List.foldlM_append, bind_eq_ok] at placed
  obtain ⟨before, _, placed⟩ := placed
  rw [List.foldlM_cons, bind_eq_ok] at placed
  obtain ⟨after, placed, done⟩ := placed
  cases done
  obtain ⟨_, step, _, rfl⟩ := placeZone_eq_ok.mp placed
  exact (Boundaries.boundary_setBoundary _ _ _ _).trans (if_pos rfl)

/-- Placing the fields of arms that fit into words overflows only where their storage needs more
than a word. -/
theorem place_inWords (target : Boundaries) (small : ∀ arm ∈ arms, arm.Small) :
    InWords .overflow (Width.words ≤ ·.ends.total) (place .bits64 limit target arms)
      (place .unbounded limit target arms) := by
  have start := Placing.start .unbounded arms
  unfold place
  apply (placeZones_inWords target start small).bind
  · intro last placed
    obtain ⟨again, same, ended, _⟩ := start.exists_placeZones target small
    obtain rfl := Except.ok.inj (placed.symm.trans same)
    have none : last.arms.find? (fun arm => !arm.pending.isEmpty) = none := by
      apply List.find?_eq_none.mpr
      intro now member
      obtain ⟨_, _, within, _⟩ := exists_left_of_mem ended.left member
      simp [Arm.pending_eq_nil within]
    rw [none]
    exact InWords.pure last
  · intro last other placed large done
    split at done
    · contradiction
    · cases done
      rw [total_of_placeZones placed]
      exact large

end Storage

/-! ## Searching -/

theorem commonBoundary?_exact {lo hi : Nat} {common : Sums} {arms : List Arm}
    (small : ∀ arm ∈ arms, arm.Small) :
    commonBoundary? .bits64 zone start lo common hi arms =
      commonBoundary? .unbounded zone start lo common hi arms := by
  induction arms generalizing common hi with
  | nil => rfl
  | cons arm rest ih =>
    unfold commonBoundary?
    rw [Arm.zoneSums_exact (small arm List.mem_cons_self).fits,
      ih fun other later => small other (List.mem_cons_of_mem arm later)]

theorem exactBoundary?_exact {lo : Nat} {arms : List Arm} (small : ∀ arm ∈ arms, arm.Small) :
    exactBoundary? .bits64 zone start lo arms = exactBoundary? .unbounded zone start lo arms := by
  cases arms with
  | nil => rfl
  | cons largest rest =>
    unfold exactBoundary?
    dsimp only
    rw [Arm.zoneSums_exact (small largest List.mem_cons_self).fits,
      commonBoundary?_exact fun other later => small other (List.mem_cons_of_mem largest later)]

namespace ZonePlan

variable {p : Progress} {s : Storage} {arms : List Arm} {zones : List Alignment} {limit total : Nat}

theorem needs_exact (small : ∀ arm ∈ p.arms, arm.Small) :
    p.needs .bits64 zone = p.needs .unbounded zone := by
  unfold Progress.needs
  rw [Bool.eq_iff_iff, List.any_eq_true, List.any_eq_true]
  constructor
  · rintro ⟨arm, member, h⟩
    exact ⟨arm, member, by rwa [(small arm member).counts] at h⟩
  · rintro ⟨arm, member, h⟩
    exact ⟨arm, member, by rwa [(small arm member).counts]⟩

/-- The least end of a zone overflows only if it is too large for a word. -/
theorem leastEnd?_inWords (small : ∀ arm ∈ p.arms, arm.Small) :
    InWords .overflow (Width.words ≤ ·) (orOverflow (p.leastEnd? .bits64 zone))
      (orOverflow (p.leastEnd? .unbounded zone)) := by
  have same : p.arms.map (Arm.pendingBytes .bits64 (zone ≤ ·)) =
      p.arms.map (Arm.pendingBytes .unbounded (zone ≤ ·)) :=
    List.map_congr_left fun arm member => Arm.pendingBytes_exact (small arm member).fits _
  unfold Progress.leastEnd?
  rw [same]
  exact (checked_inWords _).orOverflow

/-- The least end of a zone is within whatever has room for all that is still to place. -/
theorem leastEnd?_le {least top : Nat} (known : p.leastEnd? .unbounded zone = some least)
    (reached : p.reached ≤ top) (room : ∀ arm ∈ p.arms, p.reached + exactSize arm.pending ≤ top) :
    least ≤ top := by
  obtain rfl := Option.some.inj known
  have each : (p.arms.map (Arm.pendingBytes .unbounded (zone ≤ ·))).foldl max 0 ≤
      top - p.reached := by
    refine ZoneStep.foldl_max_map_le (Nat.zero_le _) fun arm listed => ?_
    have le := arm.pendingBytes_le (zone ≤ ·)
    have := room arm listed
    omega
  omega

theorem close_inWords {boundary : Nat} (below : ∀ arm ∈ p.arms, arm.Below zone)
    (small : ∀ arm ∈ p.arms, arm.Small) :
    InWords .overflow (Width.words ≤ ·.reached) (p.close .bits64 limit zone boundary)
      (p.close .unbounded limit zone boundary) := by
  unfold Progress.close
  apply (ZoneStep.fill_inWords limit p.reached boundary below small).bind
  · intro step _
    exact InWords.pure _
  · intro step next _ large done
    cases done
    exact large

theorem degrade_steps (zone : Alignment) (fallback : Nat) (plan : ZonePlan) :
    (plan.degrade zone fallback).steps = plan.steps := by
  unfold degrade
  split <;> rfl

/-- Exact placing as far as the plan's boundaries ends above what fits into words. -/
def Overruns (limit : Nat) (zones : List Alignment) (s : Storage) (plan : ZonePlan) : Prop :=
  ∃ last, zones.foldlM (Storage.placeZone .unbounded limit plan.boundaries) s = .ok last ∧
    Width.words ≤ last.start

/-- The zone is closed, and the search goes on from there. -/
theorem close_search_inWords {rest : List Alignment} {q : Progress}
    (placing : s.Placing .unbounded arms (zone :: (rest ++ [.one])))
    (small : ∀ now ∈ s.arms, now.Small) (boundary : Nat) (follows : q.Follows s)
    (onward : ∀ next after, after.Placing .unbounded arms (rest ++ [.one]) → next.Follows after →
      (∀ now ∈ after.arms, now.Small) →
        InWords .overflow (Overruns limit (rest ++ [.one]) after)
          (search .bits64 limit total rest next) (search .unbounded limit total rest next)) :
    InWords .overflow (Overruns limit (zone :: (rest ++ [.one])) s)
      (q.close .bits64 limit zone boundary >>= search .bits64 limit total rest)
      (q.close .unbounded limit zone boundary >>= search .unbounded limit total rest) := by
  have placed {next : Progress} {target : Boundaries} (hit : target.boundary zone = boundary)
      (closed : q.close .unbounded limit zone boundary = .ok next) :
      ∃ after, s.placeZone .unbounded limit target zone = .ok after ∧ next.Follows after ∧
        after.Placing .unbounded arms (rest ++ [.one]) ∧ ∀ now ∈ after.arms, now.Small := by
    obtain ⟨after, placed, follows⟩ :=
      follows.close (placing.aligned zone List.mem_cons_self) hit closed
    exact ⟨after, placed, follows, (Storage.ensures_placeZone placing).of_ok placed,
      Storage.placeZone_small placing placed small⟩
  have hit {next : Progress} {plan : ZonePlan}
      (closed : q.close .unbounded limit zone boundary = .ok next)
      (run : search .unbounded limit total rest next = .ok plan) :
      plan.boundaries.boundary zone = boundary := by
    have smaller := (List.pairwise_cons.mp placing.ordered).1
    exact boundary_of_search smaller (boundaries_of_close closed) run
  apply (close_inWords (follows.arms ▸ placing.below) (follows.arms ▸ small)).bind
  · intro next closed
    have anyway : (Boundaries.zero.setBoundary zone boundary).boundary zone = boundary := by
      rw [Boundaries.boundary_setBoundary, if_pos rfl]
    obtain ⟨after, first, follows, still, small'⟩ := placed anyway closed
    apply (onward next after still follows small').mono
    rintro plan run ⟨last, done, large⟩
    refine ⟨last, ?_, large⟩
    rw [List.foldlM_cons, Storage.placeZone_congr ((hit closed run).trans anyway.symm),
      bind_eq_of_ok first]
    exact done
  · intro next plan closed large run
    obtain ⟨after, placed, follows, still, small⟩ := placed (hit closed run) closed
    obtain ⟨last, done, _, above, _⟩ := still.exists_placeZones plan.boundaries small
    refine ⟨last, ?_, ?_⟩
    · rw [List.foldlM_cons, bind_eq_of_ok placed]
      exact done
    · rw [follows.reached] at large
      exact Nat.le_trans large above

/-- A search that overflows is on the way to a storage that does. -/
theorem search_inWords (placing : s.Placing .unbounded arms (zones ++ [.one]))
    (follows : p.Follows s) (small : ∀ now ∈ s.arms, now.Small) :
    InWords .overflow (Overruns limit (zones ++ [.one]) s) (search .bits64 limit total zones p)
      (search .unbounded limit total zones p) := by
  induction zones generalizing p s with
  | nil => exact InWords.pure _
  | cons zone rest ih =>
    rw [List.cons_append] at placing ⊢
    have closed (boundary : Nat) (q : Progress) (follows : q.Follows s) :=
      close_search_inWords placing small boundary follows fun _ _ => @ih _ _
    have same : p.arms = s.arms := follows.arms
    unfold search
    rw [needs_exact (same ▸ small)]
    split
    · apply (leastEnd?_inWords (same ▸ small)).bind
      · intro least _
        dsimp only
        rw [exactBoundary?_exact (same ▸ small)]
        split
        · split
          · exact InWords.pure _
          · exact closed _ p follows
        · exact closed _ _ ⟨follows.arms, follows.reached,
            (degrade_steps zone least p.plan).trans follows.steps⟩
      · intro least plan known large _
        obtain ⟨last, done, _, above, room⟩ := placing.exists_placeZones plan.boundaries small
        have known : p.leastEnd? .unbounded zone = some least :=
          (ensures_orOverflow _).of_ok known
        rw [← follows.reached, ← same] at room
        exact ⟨last, done, Nat.le_trans large
          (leastEnd?_le known (follows.reached ▸ above) room)⟩
    · exact closed _ p follows

/-- Planning the zones of arms that fit into words overflows only where their storage does. -/
theorem ofArms_inWords (limit : Nat) (small : ∀ arm ∈ arms, arm.Small) :
    InWords .overflow (Overruns limit Alignment.descending { arms }) (ofArms .bits64 limit arms)
      (ofArms .unbounded limit arms) := by
  unfold ofArms
  split
  · exact InWords.pure _
  · rename_i largest rest
    have start : Storage.Placing .unbounded (largest :: rest) ([.eight, .four, .two] ++ [.one])
        { arms := largest :: rest } := Storage.Placing.start .unbounded _
    exact search_inWords start ⟨rfl, rfl, rfl⟩ small

end ZonePlan

/-- The resolution of arms that fit into words overflows only where their storage needs more than a
word. -/
theorem Resolution.ofArms_inWords (limit : Nat) {arms : List Arm}
    (small : ∀ arm ∈ arms, arm.Small) :
    InWords .overflow (Width.words ≤ ·.layout.total) (ofArms .bits64 limit arms)
      (ofArms .unbounded limit arms) := by
  have small' : ∀ arm ∈ byRequirement arms, arm.Small :=
    fun arm member => small arm ((byRequirement_perm arms).mem_iff.mp member)
  unfold ofArms
  apply (ZonePlan.ofArms_inWords limit small').bind
  · intro plan _
    apply (Storage.place_inWords plan.boundaries small').bind
    · intro storage _
      exact InWords.pure _
    · intro storage r _ large done
      cases done
      exact large
  · intro plan r _ ⟨last, placed, large⟩ done
    obtain ⟨storage, stored, done⟩ := bind_eq_ok.mp done
    cases done
    have again := Storage.placeZones_of_place stored
    obtain rfl := Except.ok.inj (placed.symm.trans again)
    exact Nat.le_trans large (Nat.le_of_eq (Storage.total_of_placeZones placed).symm)

end PackedLayout
