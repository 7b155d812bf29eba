import PackedLayout.Proofs.ZeroWaste

/-!
# Boundaries that the search cannot miss

Where every arm that is large enough can end a zone, the search finds a boundary. Fields that are
one unit of their class each, like primitives, leave it enough to find:

- `exists_exactBoundary?`: a boundary that all arms can end a zone on is found, or a greater one;
- `Arm.canFill_of_units`: an arm of such fields can fill a zone up to every multiple of the class
  between its mandatory fields and all of its fields;
- `exists_search`, `resolution_of_units`: so no class of such a variant is degraded.
-/

namespace PackedLayout

variable {w : Width} {limit total : Nat} {zone : Alignment} {zones : List Alignment}
  {arms : List Arm}

/-! ## The search finds what there is -/

theorem Alignment.le_roundDown {a : Alignment} {n m : Nat} (le : n ≤ m) (whole : a.bytes ∣ n) :
    n ≤ a.roundDown m := by
  obtain ⟨c, rfl⟩ := whole
  rw [roundDown, Nat.mul_comm a.bytes]
  apply Nat.mul_le_mul_right
  rw [Nat.le_div_iff_mul_le a.bytes_pos, Nat.mul_comm]
  exact le

theorem exists_boundaryWithin? {start lo hi boundary : Nat} {common : Sums} (start_le : start ≤ lo)
    (above : lo ≤ boundary) (within : boundary ≤ hi) (whole : zone.bytes ∣ boundary - start)
    (member : common.contains (boundary - start) = true) :
    ∃ found, boundaryWithin? zone start common lo hi = some found ∧ boundary ≤ found := by
  have above' : lo - start ≤ boundary - start := by omega
  have within' : boundary - start ≤ hi - start := by omega
  obtain ⟨n, found, le⟩ := Sums.exists_largestMultiple? zone.bytes_pos above' within' whole member
  refine ⟨start + n, ?_, by omega⟩
  unfold boundaryWithin?
  rw [if_neg (by omega), found]
  rfl

theorem exists_commonBoundary? {start lo hi boundary : Nat} {common : Sums} {arms : List Arm}
    (clean : common.Clean) (start_le : start ≤ lo) (above : lo ≤ boundary)
    (within : boundary ≤ hi) (whole : zone.bytes ∣ boundary - start)
    (member : common.contains (boundary - start) = true)
    (each : ∀ arm ∈ arms, boundary ≤ arm.required →
      (arm.zoneSums w zone).contains (boundary - start) = true) :
    ∃ found, commonBoundary? w zone start lo common hi arms = some found ∧ boundary ≤ found := by
  induction arms generalizing common hi with
  | nil => exact exists_boundaryWithin? start_le above within whole member
  | cons arm rest ih =>
    unfold commonBoundary?
    by_cases short : arm.required < lo
    · rw [if_pos short]
      exact exists_boundaryWithin? start_le above within whole member
    rw [if_neg short]
    cases first : boundaryWithin? zone start common (max lo (arm.required + 1)) hi with
    | some found =>
      -- a boundary that is found before the arm counts lies above the arm
      obtain ⟨beyond, _⟩ := boundaryWithin?_sound clean (by omega) first
      by_cases reach : boundary ≤ arm.required
      · exact ⟨found, rfl, by omega⟩
      · have above : max lo (arm.required + 1) ≤ boundary := by omega
        obtain ⟨_, again, le⟩ := exists_boundaryWithin? (by omega) above within whole member
        rw [again] at first
        cases first
        exact ⟨found, rfl, le⟩
    | none =>
      have reach : boundary ≤ arm.required := by
        by_contra beyond
        have above : max lo (arm.required + 1) ≤ boundary := by omega
        obtain ⟨_, found, _⟩ := exists_boundaryWithin? (by omega) above within whole member
        simp [first] at found
      apply ih (Sums.clean_inter _ clean) (by omega)
      · simp [Sums.contains_inter, member, each arm List.mem_cons_self reach]
      · intro other later
        exact each other (List.mem_cons_of_mem _ later)

/-- A boundary that every arm can end a zone on, if it is large enough, is found, or a greater
one. -/
theorem exists_exactBoundary? {start lo boundary : Nat} {largest : Arm} {rest : List Arm}
    (aligned : zone.bytes ∣ start) (start_le : start ≤ lo) (above : lo ≤ boundary)
    (whole : zone.bytes ∣ boundary) (within : boundary ≤ largest.required)
    (each : ∀ arm ∈ largest :: rest, boundary ≤ arm.required →
      (arm.zoneSums w zone).contains (boundary - start) = true) :
    ∃ found, exactBoundary? w zone start lo (largest :: rest) = some found ∧
      boundary ≤ found := by
  have rounded := Alignment.le_roundDown within whole
  simp only [exactBoundary?]
  rw [if_neg (by omega)]
  apply exists_commonBoundary? (Arm.clean_zoneSums w zone largest) start_le above rounded
  · exact Nat.dvd_sub whole aligned
  · exact each largest List.mem_cons_self within
  · intro arm later
    exact each arm (List.mem_cons_of_mem _ later)

/-! ## Fields of one unit -/

/-- An item takes one unit of its class. -/
def Item.Unit (item : Item) : Prop := item.size = item.align.bytes

theorem Item.Unit.whole {item : Item} (unit : item.Unit) : item.Whole := by
  constructor
  · rw [unit]
    exact item.align.bytes_pos
  · exact ⟨1, by rw [unit, Nat.mul_one]⟩

/-- Sizes that divide the ones before them add up to every multiple, as far as all of them
reach. -/
theorem subsetSum_of_dvd {unit n : Nat} {sizes : List Nat} (each : ∀ k ∈ sizes, k ∣ unit)
    (ordered : sizes.Pairwise fun a b => b ∣ a) (whole : unit ∣ n) (le : n ≤ exactSum sizes) :
    SubsetSum sizes n := by
  induction sizes generalizing unit n with
  | nil =>
    rw [exactSum_nil] at le
    exact subsetSum_nil.mpr (by omega)
  | cons k rest ih =>
    obtain ⟨smaller, ordered⟩ := List.pairwise_cons.mp ordered
    have multiple : k ∣ n := Nat.dvd_trans (each k List.mem_cons_self) whole
    rw [exactSum_cons] at le
    rw [subsetSum_cons]
    by_cases none : n = 0
    · rw [none]
      exact .inl (.zero rest)
    · -- a multiple that is not reached yet has room for one more size
      have room : k ≤ n := Nat.le_of_dvd (by omega) multiple
      have whole : k ∣ n - k := Nat.dvd_sub multiple (Nat.dvd_refl k)
      exact .inr ⟨room, ih smaller ordered whole (by omega)⟩

namespace Arm

variable {arm : Arm}

/-- Such fields fill a zone up to every multiple of its class that holds the mandatory ones. -/
theorem canFill_of_units (below : arm.Below zone) (units : ∀ item ∈ arm.pending, item.Unit)
    {room : Nat} (whole : zone.bytes ∣ room) (least : exactSize (arm.mandatory zone) ≤ room)
    (most : room ≤ exactSize arm.pending) : arm.CanFill zone room := by
  have unit {item : Item} (listed : item ∈ arm.optional zone) : item.Unit :=
    units item (mem_optional.mp listed).1
  have mandatory : zone.bytes ∣ exactSize (arm.mandatory zone) := by
    apply dvd_exactSize
    intro item must
    obtain ⟨listed, same⟩ := mem_mandatory.mp must
    exact same ▸ (units item listed).whole.size_dvd
  rw [exactSize_pending zone arm] at most
  have reach : room - exactSize (arm.mandatory zone) ≤ exactSize (arm.optional zone) := by omega
  refine ⟨room - exactSize (arm.mandatory zone), subsetSum_of_dvd ?_ ?_
    (Nat.dvd_sub whole mandatory) reach, by omega⟩
  · intro k sized
    obtain ⟨item, listed, rfl⟩ := List.mem_map.mp sized
    rw [unit listed]
    exact Alignment.bytes_dvd_of_le (below item (mem_optional.mp listed).1)
  · apply List.pairwise_map.mpr
    have ordered : Descending (arm.optional zone) := descending_largestFirst _
    apply ordered.imp_of_mem
    intro a b here there le
    rw [unit here, unit there]
    exact Alignment.bytes_dvd_of_le le

/-- A room that an arm can fill is one of its sums. -/
theorem CanFill.contains_zoneSums {room : Nat} (canFill : arm.CanFill zone room)
    (below : arm.Below zone) (fits : w.Fits (exactSize arm.pending)) :
    (arm.zoneSums w zone).contains room = true := by
  obtain ⟨n, sum, rfl⟩ := canFill
  have within : n ≤ exactSize (arm.optional zone) := by
    obtain ⟨part, sub, rfl⟩ := sum
    exact exactSum_le_of_sublist sub
  have split := exactSize_pending zone arm
  unfold zoneSums
  rw [Sums.contains_reachable, pendingBytes_eq fits, pendingBytes_eq fits,
    filter_le_eq_mandatory below]
  refine ⟨?_, Nat.le_add_right _ _, ?_⟩
  · simp
    omega
  · rw [Nat.add_sub_cancel_left]
    exact subsetSum_perm ((optional_perm below).map _) sum

end Arm

/-! ## No class is degraded -/

/-- Every field of every arm takes one unit of its class. -/
def Units (arms : List Arm) : Prop := ∀ arm ∈ arms, ∀ item ∈ arm.pending, item.Unit

namespace Storage.Even

variable {s : Storage}

/-- The fields that are mandatory for a zone end at a multiple of its class. -/
theorem mandatory_le_roundDown (even : Even total arms (zone :: zones) s) (units : Units arms)
    {now : Arm} (member : now ∈ s.arms) {most : Nat} (start_le : s.start ≤ zone.roundDown most)
    (within : now.required ≤ most) :
    s.start + exactSize (now.mandatory zone) ≤ zone.roundDown most := by
  have level := even.level member
  have part := now.mandatory_le_pending zone
  rw [Arm.Level] at level
  by_cases ended : now.required ≤ s.start
  · omega
  · apply Alignment.le_roundDown (by omega)
    apply Nat.dvd_add (even.aligned zone List.mem_cons_self)
    apply dvd_exactSize
    intro item must
    obtain ⟨pending, same⟩ := Arm.mem_mandatory.mp must
    obtain ⟨arm, listed, _, _, own⟩ := even.required member
    exact same ▸ (units arm listed item (own item pending)).whole.size_dvd

/-- Every arm that reaches a multiple of the class can end the zone there. -/
theorem canFill (even : Even total arms (zone :: zones) s) (units : Units arms) {now : Arm}
    (member : now ∈ s.arms) {stop : Nat} (whole : zone.bytes ∣ stop)
    (least : s.start + exactSize (now.mandatory zone) ≤ stop) (reach : stop ≤ now.required) :
    now.CanFill zone (stop - s.start) := by
  have level := even.level member
  rw [Arm.Level] at level
  obtain ⟨arm, listed, _, _, own⟩ := even.required member
  apply Arm.canFill_of_units (even.below member)
  · intro item pending
    exact units arm listed item (own item pending)
  · exact Nat.dvd_sub whole (even.aligned zone List.mem_cons_self)
  · omega
  · omega

end Storage.Even

namespace ZonePlan

variable {p : Progress} {s : Storage}

/-- Where a class is needed, the search finds a boundary. -/
theorem exists_boundary (searchable : Searchable w limit total arms)
    (even : s.Even total arms (zone :: zones)) (units : Units arms) (follows : p.Follows s)
    (needed : p.needs w zone = true) :
    ∃ least boundary, p.leastEnd? w zone = some least ∧
      exactBoundary? w zone p.reached least p.arms = some boundary := by
  obtain ⟨needy, member, needs⟩ := List.any_eq_true.mp needed
  rw [Bool.and_eq_true, decide_eq_true_eq, decide_eq_true_eq, follows.reached] at needs
  rw [follows.arms] at member
  have mandatory {now : Arm} (member : now ∈ s.arms) :
      now.pendingBytes w (zone ≤ ·) = exactSize (now.mandatory zone) := by
    rw [Arm.pendingBytes_eq (even.fits_pending searchable member),
      Arm.filter_le_eq_mandatory (even.below member)]
  have aligned := even.aligned zone List.mem_cons_self
  cases order : s.arms with
  | nil => simp [order] at member
  | cons largest rest =>
    have first : largest ∈ s.arms := order ▸ List.mem_cons_self
    have below {now : Arm} (member : now ∈ s.arms) : now.required ≤ largest.required := by
      rw [order] at member
      obtain rfl | later := List.mem_cons.mp member
      · exact Nat.le_refl _
      · have ordered := even.largestArmFirst searchable
        rw [order] at ordered
        exact (List.pairwise_cons.mp ordered).1 now later
    have start_le : s.start ≤ zone.roundDown largest.required := by
      have := below member
      exact Alignment.le_roundDown (by omega) aligned
    have least (now : Arm) (member : now ∈ s.arms) :
        s.start + exactSize (now.mandatory zone) ≤ zone.roundDown largest.required :=
      even.mandatory_le_roundDown units member start_le (below member)
    have known : p.reached + (p.arms.map (Arm.pendingBytes w (zone ≤ ·))).foldl max 0 ≤
        zone.roundDown largest.required := by
      have most : (p.arms.map (Arm.pendingBytes w (zone ≤ ·))).foldl max 0 ≤
          zone.roundDown largest.required - s.start := by
        rw [follows.arms]
        refine ZoneStep.foldl_max_map_le (Nat.zero_le _) fun now member => ?_
        have := least now member
        rw [mandatory member]
        omega
      rw [follows.reached]
      omega
    have down := zone.roundDown_le largest.required
    have whole : zone.bytes ∣ zone.roundDown largest.required := Nat.dvd_mul_left _ _
    have each : ∀ now ∈ largest :: rest, zone.roundDown largest.required ≤ now.required →
        (now.zoneSums w zone).contains (zone.roundDown largest.required - p.reached) = true := by
      intro now listed reach
      have member : now ∈ s.arms := order ▸ listed
      rw [follows.reached]
      exact (even.canFill units member whole (least now member) reach).contains_zoneSums
        (even.below member) (even.fits_pending searchable member)
    obtain ⟨boundary, found, _⟩ :=
      exists_exactBoundary? (follows.reached ▸ aligned) (Nat.le_add_right _ _) known whole down each
    refine ⟨_, boundary, ?_, by rw [follows.arms, order]; exact found⟩
    have := even.required_le searchable first
    exact Width.checked_eq_some.mpr ⟨searchable.fits.mono (by omega), rfl⟩

/-- Placing the fields in a zone does what closing it in the search does. -/
theorem Progress.Follows.closes {stop : Nat} {after : Storage} {target : Boundaries}
    (follows : p.Follows s) (hit : target.boundary zone = stop)
    (placed : s.placeZone w limit target zone = .ok after) :
    ∃ next, p.close w limit zone stop = .ok next ∧ next.Follows after ∧
      next.plan.skipped = p.plan.skipped ∧ next.plan.degraded = p.plan.degraded := by
  obtain ⟨_, step, filled, rfl⟩ := Storage.placeZone_eq_ok.mp placed
  rw [hit, ← follows.arms, ← follows.reached] at filled
  exact ⟨_, close_eq_ok.mpr ⟨step, filled, rfl⟩,
    ⟨rfl, rfl, congrArg (· ++ [step]) follows.steps⟩, rfl, rfl⟩

/-- A class with an exact boundary is closed there, or completes the plan. -/
theorem search_of_exact {least boundary : Nat} (needed : p.needs w zone = true)
    (known : p.leastEnd? w zone = some least) (searched : p.plan.skipped = false)
    (found : exactBoundary? w zone p.reached least p.arms = some boundary) :
    search w limit total (zone :: zones) p =
      if boundary = total then
        .ok { p.plan with boundaries := p.plan.boundaries.endFrom zone boundary }
      else p.close w limit zone boundary >>= search w limit total zones := by
  unfold search
  simp only [needed, if_true, known, orOverflow_some, bind, Except.bind, searched,
    Bool.false_eq_true, if_false, found]
  rfl

/-- A search among fields of one unit comes to an end and degrades no class. -/
theorem exists_search (zones : List Alignment) (searchable : Searchable w limit total arms)
    (even : s.Even total arms (zones ++ [.one])) (units : Units arms) (follows : p.Follows s)
    (searched : p.plan.skipped = false) :
    ∃ plan, search w limit total zones p = .ok plan ∧ plan.skipped = false ∧
      plan.degraded = p.plan.degraded := by
  induction zones generalizing p s with
  | nil => exact ⟨_, rfl, searched, rfl⟩
  | cons zone rest ih =>
    -- a zone that every arm can end is closed, and the search goes on
    have closes {stop : Nat} (stop_le : stop ≤ total)
        (endsAt : ZoneStep.EndsAt zone s.start stop s.arms) :
        ∃ plan, (p.close w limit zone stop >>= search w limit total rest) = .ok plan ∧
          plan.skipped = false ∧ plan.degraded = p.plan.degraded := by
      obtain ⟨after, placed, _, _, kept⟩ := even.placeZone searchable stop_le endsAt
        (Boundaries.zero.setBoundary zone stop) (by simp)
      have stops : (Boundaries.zero.setBoundary zone stop).boundary zone = stop := by simp
      obtain ⟨next, closed, follows, skipped, degraded⟩ := follows.closes stops placed
      obtain ⟨plan, run, searched, same⟩ := ih kept follows (skipped.trans searched)
      exact ⟨plan, bind_eq_ok.mpr ⟨next, closed, run⟩, searched, same.trans degraded⟩
    by_cases needed : p.needs w zone = true
    · obtain ⟨least, boundary, known, found⟩ :=
        exists_boundary searchable even units follows needed
      rw [search_of_exact needed known searched found]
      have start_le := leastEnd?_eq_some known
      rw [follows.reached] at found start_le
      rw [follows.arms] at found
      obtain ⟨endsAt, stop_le⟩ := even.endsAt_exact searchable start_le found
      by_cases complete : boundary = total
      · rw [if_pos complete]
        exact ⟨_, rfl, searched, rfl⟩
      · rw [if_neg complete]
        exact closes stop_le endsAt
    · unfold search
      rw [if_neg needed, follows.reached]
      rw [Bool.not_eq_true] at needed
      exact closes even.start_le (even.endsAt_start
        (mandatory_of_not_needs searchable even needed follows.arms follows.reached))

end ZonePlan

/-- The storage of arms with fields of one unit has no waste if the largest arm is within the limit
of the search: no class is degraded, and the storage is as large as the largest arm. -/
theorem resolution_of_units (collected : ∀ arm ∈ arms, arm.Collected w) (units : Units arms)
    (small : ∀ arm ∈ arms, arm.required ≤ limit) :
    ∃ r, Resolution.ofArms w limit arms = .ok r ∧ r.plan.skipped = false ∧
      r.plan.degraded = [] ∧ r.degradations = [] ∧ r.isPerfect = true ∧ r.layout = r.target ∧
      r.layout.total = r.required ∧ r.required = largestSize (byRequirement arms) := by
  have perm := byRequirement_perm arms
  obtain ⟨plan, planned, searched, undegraded⟩ : ∃ plan,
      ZonePlan.ofArms w limit (byRequirement arms) = .ok plan ∧ plan.skipped = false ∧
        plan.degraded = [] := by
    cases order : byRequirement arms with
    | nil => exact ⟨_, rfl, rfl, rfl⟩
    | cons largest rest =>
      have first : largest ∈ arms := perm.mem_iff.mp (order ▸ List.mem_cons_self)
      have searchable := searchable_byRequirement collected order (small largest first)
      have searched : decide (limit < largest.required) = false := by
        simpa using small largest first
      exact ZonePlan.exists_search [.eight, .four, .two] searchable
        (Storage.even_start searchable)
        (fun arm member => units arm (perm.mem_iff.mp (order ▸ member))) ⟨rfl, rfl, rfl⟩ searched
  obtain ⟨r, resolved, rfl, same, total, required, _, none, perfect, _⟩ :=
    resolution_without_waste collected planned searched undegraded
  exact ⟨r, resolved, searched, undegraded, none, perfect, same, total, required⟩

end PackedLayout
