import RtbAdapter.KeywordMatch
import RtbAdapter.MatchedOrders

/-!
# The last filter

Of the orders in front of it, the last filter keeps the base orders, the keyword
orders with a keyword that fits a mark, and the audience orders whose audience
fits. It may crash where no keywords are filed.
-/

namespace LastFilter

open ByteWords CText PlanningUnit RtbBase FilterTables FilterMark RtbFilters FilterReferences
open FilterResults LoadedOrders MatchedOrders KeywordTree KeywordMatch Std

/-- The filter over some orders. -/
def markFilter (loaded : Loaded) : AdFilterMark := loaded.orders.foldl AdFilterMark.addData {}

/-- The marks that are searched: those of the user, or else the crowd categories. -/
def lookedMarks (r : AdRtbRequest) (world : MatchWorld) : List AdUserMark :=
  match world.user (userQuery r) with
  | some data => data.marks
  | none => (r.list .crowdCategory).map requestMark

/-- The marks that audiences are found by. -/
def lookedAudience (r : AdRtbRequest) (world : MatchWorld) : List AdUserMark :=
  match world.user (userQuery r) with
  | some data => data.audience
  | none => []

/-- The last filter looks at marks at all. -/
def Looks (r : AdRtbRequest) (world : MatchWorld) : Prop :=
  (world.user (userQuery r)).isSome ∨ r.list .crowdCategory ≠ []

variable {loaded : Loaded} {world : MatchWorld} {r : AdRtbRequest} {result : AdResult}

theorem Sound.keys_known (sound : Sound loaded result) {a : Nat}
    (inside : a ∈ result.map Prod.fst) : a ∈ loaded.orders.map Allocated.address := by
  obtain ⟨entry, listed, rfl⟩ := List.mem_map.mp inside
  exact sound.2 entry listed

theorem markAddresses_loaded : ∀ a ∈ markAddresses (markFilter loaded),
    a ∈ loaded.orders.map Allocated.address := by
  have step : ∀ (orders : List Allocated) (filter : AdFilterMark) (a : Nat),
      a ∈ markAddresses (orders.foldl AdFilterMark.addData filter) →
      a ∈ markAddresses filter ∨ a ∈ orders.map Allocated.address := by
    intro orders
    induction orders with
    | nil => exact fun _ _ inside => .inl inside
    | cons placed orders ih =>
      intro filter a inside
      rcases ih _ a inside with here | later
      · rcases mark_addData_addresses here with old | new
        · exact .inl old
        · exact .inr (by simp [new])
      · exact .inr (List.mem_cons_of_mem _ later)
  intro a inside
  rcases step loaded.orders {} a inside with none | here
  · simp [markAddresses] at none
  · exact here

/-- The audience of an order fits. -/
def AudienceFits (loaded : Loaded) (audience : List AdUserMark) (a : Nat) : Prop :=
  ∃ info ∈ foundAudience (markFilter loaded) audience, audienceFits info ∧ info.data = a

theorem present_iff {ready : AdResult} (sound : Sound loaded ready) {a : Nat}
    (known : a ∈ loaded.orders.map Allocated.address) :
    present (orderAt loaded.orders) ready a ↔ a ∈ ready.map Prod.fst := by
  simp only [present, List.any_eq_true, decide_eq_true_eq, List.mem_map]
  constructor
  · rintro ⟨entry, inside, same⟩
    exact ⟨entry, inside, loaded.apart _ (sound.2 entry inside) _ known same⟩
  · rintro ⟨entry, inside, rfl⟩
    exact ⟨entry, inside, rfl⟩

theorem matchAudience_keys {ready : AdResult} (sound : Sound loaded result)
    (waits : Sound loaded ready) (audience : List AdUserMark) (b : Nat) :
    b ∈ (matchAudience (orderAt loaded.orders) (markFilter loaded) audience ready result).map
        Prod.fst ↔
      b ∈ result.map Prod.fst ∨ b ∈ ready.map Prod.fst ∧ AudienceFits loaded audience b := by
  rw [matchAudience]
  split
  case isTrue none =>
    rw [none]
    simp
  case isFalse =>
    let chosen := (foundAudience (markFilter loaded) audience).filter fun info =>
      audienceFits info && present (orderAt loaded.orders) ready info.data
    have known : ∀ info ∈ foundAudience (markFilter loaded) audience,
        info.data ∈ loaded.orders.map Allocated.address := fun info inside =>
      markAddresses_loaded _ (List.mem_append_right _ (foundAudience_data inside))
    have inside : ∀ a ∈ chosen.map AdAudienceInfo.data,
        a ∈ loaded.orders.map Allocated.address := by
      intro a listed
      obtain ⟨info, inside, rfl⟩ := List.mem_map.mp listed
      exact known info (List.mem_of_mem_filter inside)
    have keys := (mem_upserts_keys (fun _ _ => {}) loaded.apart inside sound.1 sound.2).2.2 b
    rw [List.foldl_map] at keys
    change b ∈ (chosen.foldl _ result).map Prod.fst ↔ _
    rw [keys]
    refine or_congr_right ?_
    simp only [chosen, List.mem_map, List.mem_filter, Bool.and_eq_true]
    constructor
    · rintro ⟨info, ⟨found, fits, here⟩, rfl⟩
      exact ⟨(List.mem_map.mp ((present_iff waits (known info found)).mp here)),
        info, found, fits, rfl⟩
    · rintro ⟨ready, info, found, fits, rfl⟩
      refine ⟨info, ⟨found, fits, (present_iff waits (known info found)).mpr ?_⟩, rfl⟩
      exact List.mem_map.mpr ready

/-- What the last filter keeps of the orders in front of it. -/
def Chosen (loaded : Loaded) (r : AdRtbRequest) (world : MatchWorld) (a : Nat) : Prop :=
  let nice := (orderAt loaded.orders a).order.nice
  nice = adOrderBase ∨
    nice = adOrderNice ∧ (Meets (filed loaded.orders) (lookedMarks r world) a ∨
      Stale (filed loaded.orders) (lookedMarks r world) a) ∨
    nice = adOrderAudience ∧ AudienceFits loaded (lookedAudience r world) a

/-- A keyword order makes the filter search for long marks in an empty tree. -/
def Crashes (loaded : Loaded) (r : AdRtbRequest) (world : MatchWorld) (result : AdResult) : Prop :=
  (∃ a ∈ result.map Prod.fst, (orderAt loaded.orders a).order.nice = adOrderNice) ∧
    filed loaded.orders = [] ∧ ∃ mark ∈ lookedMarks r world, 512 ≤ mark.mark.length

theorem mem_kind {kind : UInt32} {a : Nat} :
    a ∈ (result.filter fun entry => niceOf (orderAt loaded.orders) entry = kind).map Prod.fst ↔
      a ∈ result.map Prod.fst ∧ (orderAt loaded.orders a).order.nice = kind := by
  simp only [List.mem_map, List.mem_filter, niceOf]
  constructor
  · rintro ⟨entry, ⟨inside, same⟩, rfl⟩
    exact ⟨⟨entry, inside, rfl⟩, of_decide_eq_true same⟩
  · rintro ⟨⟨entry, inside, rfl⟩, same⟩
    exact ⟨entry, ⟨inside, decide_eq_true same⟩, rfl⟩

theorem mem_nice_iff :
    (result.filter fun entry =>
      niceOf (orderAt loaded.orders) entry = adOrderNice).map Prod.fst ≠ [] ↔
      ∃ a ∈ result.map Prod.fst, (orderAt loaded.orders a).order.nice = adOrderNice := by
  constructor
  · intro some'
    obtain ⟨a, inside⟩ := List.exists_mem_of_ne_nil _ some'
    exact ⟨a, mem_kind.mp inside⟩
  · rintro ⟨a, inside⟩
    exact List.ne_nil_of_mem (mem_kind.mpr inside)

/-- The base orders, with the keyword orders that the loop over the marks finds. -/
def markedOrders (loaded : Loaded) (result : AdResult) (looked : List AdUserMark) :
    Option AdResult :=
  let unit := orderAt loaded.orders
  let base := result.filter fun entry => niceOf unit entry = adOrderBase
  let nice := (result.filter fun entry => niceOf unit entry = adOrderNice).map Prod.fst
  if nice = [] then some base else matchMarks unit (markFilter loaded).tree nice looked [] base

theorem waiting_nil (looked : List AdUserMark) : waiting [] looked = [] := by
  refine List.foldlRecOn (motive := fun found => found = []) looked _ rfl ?_
  rintro _ rfl mark _
  rfl

/-- The keyword orders that the loop over the marks leaves, or a crash. -/
theorem matchMarks_filed (sound : Sound loaded result) (looked : List AdUserMark) :
    ((∃ a ∈ result.map Prod.fst, (orderAt loaded.orders a).order.nice = adOrderNice) ∧
        filed loaded.orders = [] ∧ (∃ mark ∈ looked, 512 ≤ mark.mark.length) →
      markedOrders loaded result looked = none) ∧
    (¬ ((∃ a ∈ result.map Prod.fst, (orderAt loaded.orders a).order.nice = adOrderNice) ∧
        filed loaded.orders = [] ∧ ∃ mark ∈ looked, 512 ≤ mark.mark.length) →
      ∃ after, markedOrders loaded result looked = some after ∧ Sound loaded after ∧
        ∀ b, b ∈ after.map Prod.fst ↔ b ∈ result.map Prod.fst ∧
          ((orderAt loaded.orders b).order.nice = adOrderBase ∨
            (orderAt loaded.orders b).order.nice = adOrderNice ∧
              (Meets (filed loaded.orders) looked b ∨ Stale (filed loaded.orders) looked b))) := by
  rw [← mem_nice_iff, markedOrders]
  have tree : (markFilter loaded).tree = treeOf (filed loaded.orders) := tree_filed loaded.orders
  have base : Sound loaded (result.filter fun entry =>
    niceOf (orderAt loaded.orders) entry = adOrderBase) := sound.filter _
  have listed : ∀ a ∈ (result.filter fun entry =>
      niceOf (orderAt loaded.orders) entry = adOrderNice).map Prod.fst,
      a ∈ loaded.orders.map Allocated.address :=
    fun a inside => Sound.keys_known sound (mem_kind.mp inside).1
  rw [tree]
  by_cases none : (result.filter fun entry =>
      niceOf (orderAt loaded.orders) entry = adOrderNice).map Prod.fst = []
  · refine ⟨fun crash => absurd none crash.1, fun _ => ⟨_, if_pos none, base, fun b => ?_⟩⟩
    rw [mem_kind]
    refine and_congr_right fun inside => ⟨.inl, ?_⟩
    rintro (kind | ⟨kind, _⟩)
    · exact kind
    · exact absurd none (mem_nice_iff.mpr ⟨b, inside, kind⟩)
  rw [if_neg none]
  by_cases bare : filed loaded.orders = []
  · rw [bare, matchMarks_bare]
    constructor
    · rintro ⟨_, _, mark, inside, long⟩
      exact if_neg fun short => absurd (short mark inside) (by omega)
    · intro safe
      have short : ∀ mark ∈ looked, mark.mark.length < 512 := by
        intro mark inside
        by_contra long
        exact safe ⟨none, rfl, mark, inside, by omega⟩
      refine ⟨_, if_pos short, base, fun b => ?_⟩
      rw [mem_kind]
      refine and_congr_right fun inside => ⟨.inl, ?_⟩
      rintro (kind | ⟨_, ⟨_, _, info, inside, _⟩ | ⟨before, _, _, _, info, inside, _⟩⟩)
      · exact kind
      · exact absurd inside List.not_mem_nil
      · rw [waiting_nil] at inside
        exact absurd inside List.not_mem_nil
  · refine ⟨fun crash => absurd crash.2.1 bare, fun _ => ?_⟩
    obtain ⟨after, matched, ordered, within, keys⟩ := matchMarks_eq loaded.apart listed bare
      (fun _ => filed_usable) looked (fun _ => Iff.rfl) base.1 base.2
    refine ⟨after, matched, ⟨ordered, within⟩, fun b => ?_⟩
    rw [keys, keptFrom_nil, mem_kind, mem_kind, and_assoc, ← and_or_left]

/-- A request without a known user and without crowd categories gets the base orders. -/
theorem matchRequest_blind (blind : ¬ Looks r world) :
    (markFilter loaded).matchRequest (orderAt loaded.orders) world.user world.now r result =
      some (result.filter fun entry => niceOf (orderAt loaded.orders) entry = adOrderBase) := by
  rw [Looks, not_or, not_not] at blind
  rw [AdFilterMark.matchRequest]
  exact if_pos ⟨by simpa using blind.1, blind.2⟩

variable (result) in
/-- In time, the filter goes on to the marks and then to the audiences. -/
theorem matchRequest_eq (looks : Looks r world) (inTime : ¬ Late r world) :
    ∃ executeID, (markFilter loaded).matchRequest (orderAt loaded.orders) world.user world.now r
        result =
      (markedOrders loaded result (lookedMarks r world)).map fun marked =>
        vipUserTag (orderAt loaded.orders) executeID
          (matchAudience (orderAt loaded.orders) (markFilter loaded) (lookedAudience r world)
            (result.filter fun entry => niceOf (orderAt loaded.orders) entry = adOrderAudience)
            marked) := by
  have onTime : ¬ r.checkLife world.now := fun missed => inTime ⟨looks, missed⟩
  have asked : ¬ ((world.user (userQuery r)).isNone ∧ r.list .crowdCategory = []) := by
    rintro ⟨unknown, uncrowded⟩
    rcases looks with known | crowded
    · simp [Option.isNone_iff_eq_none.mp unknown] at known
    · exact crowded uncrowded
  rw [AdFilterMark.matchRequest, markedOrders, lookedMarks, lookedAudience]
  dsimp only
  rw [if_neg asked, if_neg onTime]
  cases world.user (userQuery r) with
  | none =>
    refine ⟨[], ?_⟩
    split
    · rfl
    · rw [Option.map_eq_bind]
      rfl
  | some data =>
    refine ⟨data.executeID, ?_⟩
    split
    · rfl
    · rw [Option.map_eq_bind]
      rfl

/-- In time, the last filter crashes or keeps the orders that are chosen. -/
theorem matchRequest_looks (looks : Looks r world) (inTime : ¬ Late r world)
    (sound : Sound loaded result) :
    let matched := (markFilter loaded).matchRequest (orderAt loaded.orders) world.user world.now r
      result
    (Crashes loaded r world result → matched = none) ∧
      (¬ Crashes loaded r world result → ∃ after, matched = some after ∧
        ∀ b, b ∈ after.map Prod.fst ↔ b ∈ result.map Prod.fst ∧ Chosen loaded r world b) := by
  obtain ⟨executeID, matched⟩ := matchRequest_eq result looks inTime
  obtain ⟨crashed, kept⟩ := matchMarks_filed sound (lookedMarks r world)
  dsimp only
  rw [matched]
  constructor
  · intro crashes
    rw [crashed crashes]
    rfl
  · intro safe
    obtain ⟨after, marked, sound', keys⟩ := kept safe
    rw [marked]
    refine ⟨_, rfl, fun b => ?_⟩
    have waits : Sound loaded (result.filter fun entry =>
      niceOf (orderAt loaded.orders) entry = adOrderAudience) := sound.filter _
    rw [vipUserTag_map, matchAudience_keys sound' waits, keys, mem_kind, Chosen]
    generalize (Meets _ _ b ∨ Stale _ _ b) = marked
    generalize AudienceFits _ _ b = fits
    tauto

variable (loaded : Loaded) (descriptions : AdMap AdTanxDescription)

theorem candidates_looks (looks : Looks r world) (inTime : ¬ Late r world) :
    (Crashes loaded r world (survivors loaded descriptions world r) →
      candidates loaded descriptions world r = none) ∧
    (¬ Crashes loaded r world (survivors loaded descriptions world r) →
      ∃ got, candidates loaded descriptions world r = some got ∧ ∀ b, b ∈ got ↔
        b ∈ (survivors loaded descriptions world r).map Prod.fst ∧ Chosen loaded r world b) := by
  have sound : Sound loaded (survivors loaded descriptions world r) := sound_survivors
  obtain ⟨crashed, kept⟩ := matchRequest_looks looks inTime sound
  rw [candidates, filtersMatch_eq]
  constructor
  · intro crashes
    exact congrArg (Option.map _) (crashed crashes)
  · intro safe
    obtain ⟨after, matched, keys⟩ := kept safe
    exact ⟨_, congrArg (Option.map _) matched, keys⟩

theorem candidates_blind (blind : ¬ Looks r world) :
    ∃ got, candidates loaded descriptions world r = some got ∧ ∀ b, b ∈ got ↔
      b ∈ (survivors loaded descriptions world r).map Prod.fst ∧
        (orderAt loaded.orders b).order.nice = adOrderBase := by
  rw [candidates, filtersMatch_eq]
  exact ⟨_, congrArg (Option.map _) (matchRequest_blind blind), fun _ => mem_kind⟩

end LastFilter
