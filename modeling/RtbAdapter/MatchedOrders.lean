import RtbAdapter.LoadedOrders

/-!
# The orders that a request gets

Before the last filter, a request is left with the orders that have a key each
table filter asks for, suit its other members, have no key that it bans, and are
not held back by the real time table.
-/

namespace MatchedOrders

open ByteWords CText PlanningUnit RtbBase FilterTables FilterMark RtbFilters FilterReferences
open FilterResults LoadedOrders Std

/-- Some key that is asked for is there. -/
def got (asks keys : List Bytes) : Bool := asks.any fun key => keys.contains key

/-- The bits a request must get. -/
def maskOf (r : AdRtbRequest) : UInt32 :=
  if flowOf r = adProtocolFlowMobile then adFilterNormal ||| adFilterMobile else adFilterNormal

/-- Each table filter finds the order. -/
structure Asked (u : AdPlanningUnit) (clock : LocalTime) (r : AdRtbRequest) : Prop where
  time : got (timeAsks clock) (timeKeys u)
  adExchange : got (adExchangeAsks r) (adExchangeKeys u)
  pid : got (pidAsks r) (pidKeys u)
  area : got (areaAsks r) (areaKeys u)
  size : got (sizeAsks r) (sizeKeys u)
  userAgent : got (userAgentAsks r) (userAgentKeys u)
  mobileOperator : flowOf r = adProtocolFlowMobile →
    got (numberAsks (r.list .mobileOperator)) (mobileOperatorKeys u)
  mobileDevice : flowOf r = adProtocolFlowMobile →
    got (numberAsks (r.list .mobileDevice)) (mobileDeviceKeys u)
  mobileConnect : flowOf r = adProtocolFlowMobile →
    got (numberAsks (r.list .mobileConnect)) (mobileConnectKeys u)

/-- The order is one for the request, as far as the tables and the parameters go. -/
structure Passes (u : AdPlanningUnit) (clock : LocalTime) (r : AdRtbRequest) : Prop where
  asked : Asked u clock r
  parameter : parameterKeeps (fun _ => u) r (0, ⟨false, maskOf r⟩)
  ban : got (banAsks r) (banKeys u) = false

variable {loaded : Loaded} {world : MatchWorld} {r : AdRtbRequest} {result : AdResult} {a : Nat}

/-- A filter that looks up a table: its bit, the keys it files and the keys it asks for. -/
structure TableFilter where
  bit : UInt32
  keys : AdPlanningUnit → List Bytes
  asks : List Bytes

def tableFilters (clock : LocalTime) (r : AdRtbRequest) : List TableFilter :=
  [⟨adFilterTime, timeKeys, timeAsks clock⟩,
    ⟨adFilterAdx, adExchangeKeys, adExchangeAsks r⟩,
    ⟨adFilterPid, pidKeys, pidAsks r⟩,
    ⟨adFilterArea, areaKeys, areaAsks r⟩,
    ⟨adFilterSize, sizeKeys, sizeAsks r⟩,
    ⟨adFilterUa, userAgentKeys, userAgentAsks r⟩,
    ⟨adFilterMobileOperater, mobileOperatorKeys, mobileOperatorAsks r⟩,
    ⟨adFilterMobileDevice, mobileDeviceKeys, mobileDeviceAsks r⟩,
    ⟨adFilterMobileConnect, mobileConnectKeys, mobileConnectAsks r⟩]

namespace TableFilter

def run (loaded : Loaded) (filter : TableFilter) (result : AdResult) : AdResult :=
  hit (orderAt loaded.orders) filter.bit (tableOf filter.keys loaded.orders) filter.asks result

/-- What the filter adds to the bits of an order. -/
def gain (filter : TableFilter) (u : AdPlanningUnit) : UInt32 :=
  if got filter.asks (filter.keys u) then filter.bit else 0

end TableFilter

/-- Ordered, over the loaded orders. -/
def Sound (loaded : Loaded) (result : AdResult) : Prop :=
  Ordered (orderAt loaded.orders) result ∧ Within (loaded.orders.map Allocated.address) result

theorem sound_nil : Sound loaded [] :=
  ⟨.nil, fun _ inside => absurd inside List.not_mem_nil⟩

theorem Sound.filter (sound : Sound loaded result) (keeps : Nat × AdRtbFilterResult → Bool) :
    Sound loaded (result.filter keeps) := ⟨sound.1.filter keeps, sound.2.filter keeps⟩

theorem found_loaded {keys : AdPlanningUnit → List Bytes} {asks : List Bytes} :
    ∀ a ∈ asks.flatMap (tableOf keys loaded.orders).find,
      a ∈ loaded.orders.map Allocated.address := by
  intro a found
  obtain ⟨key, _, found⟩ := List.mem_flatMap.mp found
  obtain ⟨placed, inside, _, rfl⟩ := mem_find_tableOf.mp found
  exact List.mem_map_of_mem inside

/-- An order is found under the keys that it has. -/
theorem mem_found {keys : AdPlanningUnit → List Bytes} {asks : List Bytes}
    (known : a ∈ loaded.orders.map Allocated.address) :
    a ∈ asks.flatMap (tableOf keys loaded.orders).find ↔
      got asks (keys (orderAt loaded.orders a)) := by
  obtain ⟨placed, inside, rfl⟩ := List.mem_map.mp known
  rw [orderAt_address loaded.addresses inside]
  simp only [List.mem_flatMap, mem_find_tableOf, got, List.any_eq_true, List.contains_iff_mem]
  constructor
  · rintro ⟨key, asked, other, inside', filed, same⟩
    obtain rfl := List.inj_on_of_nodup_map loaded.addresses inside' inside same
    exact ⟨key, asked, filed⟩
  · rintro ⟨key, asked, filed⟩
    exact ⟨key, asked, placed, inside, filed, rfl⟩

theorem run_eq_hits (filter : TableFilter) :
    filter.run loaded result = hits (orderAt loaded.orders) filter.bit
      (filter.asks.flatMap (tableOf filter.keys loaded.orders).find) result := rfl

theorem Sound.run (sound : Sound loaded result) (filter : TableFilter) :
    Sound loaded (filter.run loaded result) := by
  constructor
  · exact (mem_hits filter.bit loaded.apart found_loaded sound.1 sound.2).1
  · exact Within.foldl (fun result a inside within => within.upsert (found_loaded a inside))
      sound.2

theorem valueAt_run (sound : Sound loaded result) (filter : TableFilter)
    (known : a ∈ loaded.orders.map Allocated.address) :
    valueAt (filter.run loaded result) a =
      setBit (filter.gain (orderAt loaded.orders a)) (valueAt result a) := by
  rw [run_eq_hits, valueAt_hits filter.bit loaded.apart found_loaded sound.1 sound.2,
    TableFilter.gain]
  simp only [mem_found known]
  split
  · rfl
  · simp [setBit]

theorem sound_tables (filters : List TableFilter) (sound : Sound loaded result) :
    Sound loaded (filters.foldl (fun result filter => filter.run loaded result) result) := by
  induction filters generalizing result with
  | nil => exact sound
  | cons filter filters ih => exact ih (sound.run filter)

/-- After all tables an order has the bits of the filters that found it. -/
theorem valueAt_tables (filters : List TableFilter) (sound : Sound loaded result)
    (known : a ∈ loaded.orders.map Allocated.address) :
    valueAt (filters.foldl (fun result filter => filter.run loaded result) result) a =
      filters.foldl (fun v filter => setBit (filter.gain (orderAt loaded.orders a)) v)
        (valueAt result a) := by
  induction filters generalizing result with
  | nil => rfl
  | cons filter filters ih =>
    rw [List.foldl_cons, List.foldl_cons, ih (sound.run filter), valueAt_run sound filter known]

/-- The bits of the filters that were hit. -/
def bitsOf (hits : List (UInt32 × Bool)) : UInt32 :=
  hits.foldl (fun bits hit => bits ||| if hit.2 then hit.1 else 0) 0

/-- The mask of a mobile request is reached exactly when all filters were hit. -/
theorem bitsOf_mobile : ∀ time adExchange pid area size userAgent operator device connect : Bool,
    bitsOf [(adFilterTime, time), (adFilterAdx, adExchange), (adFilterPid, pid),
        (adFilterArea, area), (adFilterSize, size), (adFilterUa, userAgent),
        (adFilterMobileOperater, operator), (adFilterMobileDevice, device),
        (adFilterMobileConnect, connect)] = adFilterNormal ||| adFilterMobile ↔
      (time && adExchange && pid && area && size && userAgent && operator && device &&
        connect) := by
  decide

theorem bitsOf_normal : ∀ time adExchange pid area size userAgent : Bool,
    bitsOf [(adFilterTime, time), (adFilterAdx, adExchange), (adFilterPid, pid),
        (adFilterArea, area), (adFilterSize, size), (adFilterUa, userAgent),
        (adFilterMobileOperater, false), (adFilterMobileDevice, false),
        (adFilterMobileConnect, false)] = adFilterNormal ↔
      (time && adExchange && pid && area && size && userAgent) := by
  decide

/-- What an order holds once all tables have been asked. -/
def tableValue (u : AdPlanningUnit) (clock : LocalTime) (r : AdRtbRequest) : AdRtbFilterResult :=
  (tableFilters clock r).foldl (fun v filter => setBit (filter.gain u) v) {}

theorem tableValue_vip (u : AdPlanningUnit) (clock : LocalTime) (r : AdRtbRequest) :
    (tableValue u clock r).vip = false := rfl

theorem tableValue_matched (u : AdPlanningUnit) (clock : LocalTime) (r : AdRtbRequest) :
    (tableValue u clock r).matched = bitsOf ((tableFilters clock r).map fun filter =>
      (filter.bit, got filter.asks (filter.keys u))) := rfl

/-- An order holds the mask exactly when each table filter finds it. -/
theorem tableValue_eq_mask {u : AdPlanningUnit} {clock : LocalTime} :
    (tableValue u clock r).matched = maskOf r ↔ Asked u clock r := by
  rw [tableValue_matched, maskOf]
  simp only [tableFilters, List.map_cons, List.map_nil, mobileOperatorAsks, mobileDeviceAsks,
    mobileConnectAsks, whenMobile]
  split
  case isTrue mobile =>
    rw [bitsOf_mobile]
    simp only [Bool.and_eq_true]
    constructor
    · rintro ⟨⟨⟨⟨⟨⟨⟨⟨time, adExchange⟩, pid⟩, area⟩, size⟩, userAgent⟩, operator⟩, device⟩, connect⟩
      exact ⟨time, adExchange, pid, area, size, userAgent, fun _ => operator, fun _ => device,
        fun _ => connect⟩
    · rintro ⟨time, adExchange, pid, area, size, userAgent, operator, device, connect⟩
      exact ⟨⟨⟨⟨⟨⟨⟨⟨time, adExchange⟩, pid⟩, area⟩, size⟩, userAgent⟩, operator mobile⟩,
        device mobile⟩, connect mobile⟩
  case isFalse other =>
    have none : ∀ keys, got [] keys = false := fun _ => rfl
    simp only [none]
    rw [bitsOf_normal]
    simp only [Bool.and_eq_true]
    constructor
    · rintro ⟨⟨⟨⟨⟨time, adExchange⟩, pid⟩, area⟩, size⟩, userAgent⟩
      exact ⟨time, adExchange, pid, area, size, userAgent, fun mobile => absurd mobile other,
        fun mobile => absurd mobile other, fun mobile => absurd mobile other⟩
    · rintro ⟨time, adExchange, pid, area, size, userAgent, _⟩
      exact ⟨⟨⟨⟨⟨time, adExchange⟩, pid⟩, area⟩, size⟩, userAgent⟩

theorem maskOf_ne_zero : maskOf r ≠ 0 := by
  rw [maskOf]
  split <;> decide

/-- The result after the tables. -/
def tables (loaded : Loaded) (clock : LocalTime) (r : AdRtbRequest) : AdResult :=
  (tableFilters clock r).foldl (fun result filter => filter.run loaded result) []

/-- The result in front of the last filter. -/
def survivors (loaded : Loaded) (descriptions : AdMap AdTanxDescription) (world : MatchWorld)
    (r : AdRtbRequest) : AdResult :=
  let unit := orderAt loaded.orders
  let suited := (tables loaded world.clock r).filter (parameterKeeps unit r)
  let allowed := eraseAll unit (tableOf banKeys loaded.orders) (banAsks r) suited
  let open' := eraseAll unit (tableOf tanxKeys loaded.orders) (tanxAsks descriptions r) allowed
  open'.filter (realTimeKeeps unit world.infos world.second)

theorem eq_mk {v : AdRtbFilterResult} {bits : UInt32} (vip : v.vip = false)
    (matched : v.matched = bits) : v = ⟨false, bits⟩ := by
  cases v
  simp_all

theorem sound_asked (loaded : Loaded) (clock : LocalTime) (r : AdRtbRequest) :
    Sound loaded (tables loaded clock r) := sound_tables _ sound_nil

theorem valueAt_asked (clock : LocalTime) (r : AdRtbRequest)
    (known : a ∈ loaded.orders.map Allocated.address) :
    valueAt (tables loaded clock r) a = tableValue (orderAt loaded.orders a) clock r := by
  rw [tables, valueAt_tables _ sound_nil known]
  rfl

theorem mem_tables_mask {clock : LocalTime} (v : AdRtbFilterResult) :
    ((a, v) ∈ tables loaded clock r ∧ v.matched = maskOf r) ↔
      a ∈ loaded.orders.map Allocated.address ∧ v = ⟨false, maskOf r⟩ ∧
        Asked (orderAt loaded.orders a) clock r := by
  have sound := sound_asked loaded clock r
  have value : a ∈ loaded.orders.map Allocated.address → _ := valueAt_asked clock r
  constructor
  · rintro ⟨inside, mask⟩
    have known := sound.2 _ inside
    have held : v = tableValue (orderAt loaded.orders a) clock r :=
      (valueAt_of_mem sound.1 inside).symm.trans (value known)
    refine ⟨known, eq_mk (held ▸ tableValue_vip _ _ _) mask, ?_⟩
    exact tableValue_eq_mask.mp (held ▸ mask)
  · rintro ⟨known, rfl, asked⟩
    refine ⟨?_, rfl⟩
    have held : valueAt (tables loaded clock r) a = ⟨false, maskOf r⟩ :=
      (value known).trans (eq_mk (tableValue_vip _ _ _) (tableValue_eq_mask.mpr asked))
    by_contra absent
    have none : valueAt (tables loaded clock r) a = {} := by
      refine valueAt_of_absent fun w inside => absent ?_
      rwa [← valueAt_of_mem sound.1 inside, held] at inside
    rw [held] at none
    exact maskOf_ne_zero (congrArg AdRtbFilterResult.matched none)

theorem eraseAll_eq {unit : Nat → AdPlanningUnit} (table : AdMap Nat) (keys : List Bytes)
    (result : AdResult) :
    eraseAll unit table keys result = result.filter fun entry =>
      ∀ a ∈ keys.flatMap table.find, execId unit entry.1 ≠ execId unit a := by
  rw [eraseAll]
  induction keys.flatMap table.find generalizing result with
  | nil => simp
  | cons a found ih =>
    rw [List.foldl_cons, ih, erase, List.filter_filter]
    congr 1
    funext entry
    simp [Bool.and_comm]

theorem Sound.eraseAll (sound : Sound loaded result) (table : AdMap Nat) (keys : List Bytes) :
    Sound loaded (FilterTables.eraseAll (orderAt loaded.orders) table keys result) := by
  rw [eraseAll_eq]
  exact sound.filter _

theorem mem_eraseAll {keys : AdPlanningUnit → List Bytes} {asks : List Bytes}
    (sound : Sound loaded result) (entry : Nat × AdRtbFilterResult) :
    entry ∈ eraseAll (orderAt loaded.orders) (tableOf keys loaded.orders) asks result ↔
      entry ∈ result ∧ got asks (keys (orderAt loaded.orders entry.1)) = false := by
  rw [eraseAll_eq, List.mem_filter, decide_eq_true_eq]
  refine and_congr_right fun inside => ?_
  have known := sound.2 entry inside
  rw [← Bool.not_eq_true, ← mem_found known]
  constructor
  · intro apart found
    exact apart entry.1 found rfl
  · intro absent a found same
    obtain rfl := loaded.apart entry.1 known a (found_loaded a found) same
    exact absent found

theorem parameterKeeps_mask {unit : Nat → AdPlanningUnit} {entry : Nat × AdRtbFilterResult}
    (keeps : parameterKeeps unit r entry) : entry.2.matched = maskOf r := by
  simp only [parameterKeeps, Bool.and_eq_true, decide_eq_true_eq] at keeps
  exact keeps.1.1.1.1

theorem sound_survivors {descriptions : AdMap AdTanxDescription} :
    Sound loaded (survivors loaded descriptions world r) :=
  (((sound_asked loaded world.clock r).filter _).eraseAll _ _).eraseAll _ _ |>.filter _

/-- The orders in front of the last filter are those that pass all the others. -/
theorem mem_survivors {descriptions : AdMap AdTanxDescription}
    (entry : Nat × AdRtbFilterResult) :
    entry ∈ survivors loaded descriptions world r ↔
      entry.1 ∈ loaded.orders.map Allocated.address ∧ entry.2 = ⟨false, maskOf r⟩ ∧
        Passes (orderAt loaded.orders entry.1) world.clock r ∧
        got (tanxAsks descriptions r) (tanxKeys (orderAt loaded.orders entry.1)) = false ∧
        realTimeKeeps (orderAt loaded.orders) world.infos world.second entry := by
  have suited := (sound_asked loaded world.clock r).filter
    (parameterKeeps (orderAt loaded.orders) r)
  rw [survivors, List.mem_filter, mem_eraseAll (suited.eraseAll _ _), mem_eraseAll suited,
    List.mem_filter]
  obtain ⟨a, v⟩ := entry
  constructor
  · rintro ⟨⟨⟨⟨inside, parameter⟩, ban⟩, tanx⟩, realTime⟩
    obtain ⟨known, rfl, asked⟩ :=
      (mem_tables_mask v).mp ⟨inside, parameterKeeps_mask parameter⟩
    exact ⟨known, rfl, ⟨asked, parameter, ban⟩, tanx, realTime⟩
  · rintro ⟨known, rfl, ⟨asked, parameter, ban⟩, tanx, realTime⟩
    obtain ⟨inside, _⟩ := (mem_tables_mask _).mpr ⟨known, rfl, asked⟩
    exact ⟨⟨⟨⟨inside, parameter⟩, ban⟩, tanx⟩, realTime⟩

theorem runFilters_some (f : AdResult → AdResult) (filters : List (AdResult → Option AdResult)) :
    runFilters ((fun result => some (f result)) :: filters) result =
      if f result = [] then some [] else runFilters filters (f result) := rfl

/-- A table keeps the orders that are there. -/
theorem runFilters_tables (filters : List TableFilter)
    (rest : List (AdResult → Option AdResult)) (some' : result ≠ []) :
    runFilters (filters.map (fun filter result => some (filter.run loaded result)) ++ rest) result =
      runFilters rest (filters.foldl (fun result filter => filter.run loaded result) result) := by
  induction filters generalizing result with
  | nil => rfl
  | cons filter filters ih =>
    have kept : filter.run loaded result ≠ [] := by
      refine List.foldlRecOn (motive := fun result => result ≠ []) _ _ some' ?_
      intro result some' a _
      cases result with
      | nil => exact absurd rfl some'
      | cons entry rest =>
        rw [upsert]
        split
        · simp
        split <;> simp
    rw [List.map_cons, List.cons_append, runFilters_some, if_neg kept, ih kept]
    rfl

/-- A filter that makes nothing out of nothing is as well run to the end. -/
theorem runFilters_shrinking {filters : List (AdResult → AdResult)}
    (shrinking : ∀ f ∈ filters, f [] = []) {last : AdResult → Option AdResult}
    (stops : last [] = some []) :
    runFilters (filters.map (fun f result => some (f result)) ++ [last]) result =
      last (filters.foldl (fun result f => f result) result) := by
  induction filters generalizing result with
  | nil =>
    change ((last result).bind fun result => if result = [] then some [] else some result) =
      last result
    cases last result with
    | none => rfl
    | some result =>
      rw [Option.bind_some]
      split
      case isTrue nothing => rw [nothing]
      case isFalse => rfl
  | cons f filters ih =>
    obtain ⟨here, shrinking⟩ := List.forall_mem_cons.mp shrinking
    rw [List.map_cons, List.cons_append, runFilters_some, List.foldl_cons]
    split
    case isTrue nothing =>
      have rest : filters.foldl (fun result f => f result) [] = [] := by
        refine List.foldlRecOn (motive := fun result => result = []) filters _ rfl ?_
        intro result empty f inside
        rw [empty, shrinking f inside]
      rw [nothing, rest, stops]
    case isFalse => exact ih shrinking

theorem matchRequest_nil {unit : Nat → AdPlanningUnit} {filter : AdFilterMark}
    {user : AdUserData → Option AdUserData} {now : Time} :
    filter.matchRequest unit user now r [] = some [] := by
  rw [AdFilterMark.matchRequest]
  split
  · rfl
  dsimp only
  split
  · rfl
  · simp [matchAudience, vipUserTag]

/-- When no order is pushed at this hour, none gets the mask from the other tables. -/
theorem untimed {clock : LocalTime}
    (nothing : (⟨adFilterTime, timeKeys, timeAsks clock⟩ : TableFilter).run loaded [] = []) :
    (tables loaded clock r).filter (parameterKeeps (orderAt loaded.orders) r) = [] := by
  rw [List.eq_nil_iff_forall_not_mem]
  rintro ⟨a, v⟩ inside
  obtain ⟨among, keeps⟩ := List.mem_filter.mp inside
  obtain ⟨known, -, asked⟩ := (mem_tables_mask v).mp ⟨among, parameterKeeps_mask keeps⟩
  have found := (mem_found known).mpr asked.time
  have inside : ∀ a ∈ (timeAsks clock).flatMap (tableOf timeKeys loaded.orders).find,
      a ∈ loaded.orders.map Allocated.address := found_loaded
  obtain ⟨-, members⟩ := mem_hits adFilterTime loaded.apart inside sound_nil.1 sound_nil.2
  have made := (members (a, setBit adFilterTime (valueAt [] a))).mpr (.inl ⟨found, rfl⟩)
  rw [← run_eq_hits ⟨adFilterTime, timeKeys, timeAsks clock⟩, nothing] at made
  exact List.not_mem_nil made

/-- The chain hands what passes all other filters to the last one. -/
theorem filtersMatch_eq (loaded : Loaded) (descriptions : AdMap AdTanxDescription)
    (world : MatchWorld) (r : AdRtbRequest) :
    filtersMatch (orderAt loaded.orders) { build loaded.orders with descriptions } world r =
      (loaded.orders.foldl AdFilterMark.addData {}).matchRequest (orderAt loaded.orders)
        world.user world.now r (survivors loaded descriptions world r) := by
  rw [filtersMatch, build_eq]
  let unit := orderAt loaded.orders
  let later : List (AdResult → AdResult) :=
    [fun result => result.filter (parameterKeeps unit r),
      fun result => eraseAll unit (tableOf banKeys loaded.orders) (banAsks r) result,
      fun result => result,
      fun result => eraseAll unit (tableOf tanxKeys loaded.orders) (tanxAsks descriptions r) result,
      fun result => result.filter (realTimeKeeps unit world.infos world.second),
      fun result => result]
  have shrinking : ∀ f ∈ later, f [] = [] := by
    simp [later, eraseAll_eq]
  let last : AdResult → Option AdResult :=
    (loaded.orders.foldl AdFilterMark.addData {}).matchRequest
    unit world.user world.now r
  change runFilters ((tableFilters world.clock r).map
    (fun filter result => some (filter.run loaded result)) ++
      (later.map (fun f result => some (f result)) ++ [last])) [] =
    last (survivors loaded descriptions world r)
  rw [tableFilters, List.map_cons, List.cons_append, runFilters_some]
  split
  case isTrue nothing =>
    have empty : survivors loaded descriptions world r = [] := by
      rw [survivors, untimed nothing]
      simp [eraseAll_eq]
    rw [empty]
    exact matchRequest_nil.symm
  case isFalse some' =>
    rw [runFilters_tables _ _ some', runFilters_shrinking shrinking matchRequest_nil]
    rfl

/-- A request whose time is over when the last filter looks. -/
def Late (r : AdRtbRequest) (world : MatchWorld) : Prop :=
  ((world.user (userQuery r)).isSome ∨ r.list .crowdCategory ≠ []) ∧ r.checkLife world.now

/-- A request that no order can be for. -/
def Barren (r : AdRtbRequest) (world : MatchWorld) : Prop :=
  Late r world ∨ ∀ u, ¬ Passes u world.clock r

theorem matchRequest_late (late : Late r world) {unit : Nat → AdPlanningUnit}
    (filter : AdFilterMark) (result : AdResult) :
    filter.matchRequest unit world.user world.now r result = some [] := by
  obtain ⟨looked, missed⟩ := late
  have asked : ¬ ((world.user (userQuery r)).isNone ∧ r.list .crowdCategory = []) := by
    rintro ⟨unknown, uncrowded⟩
    rw [Option.isNone_iff_eq_none] at unknown
    simp [unknown, uncrowded] at looked
  rw [AdFilterMark.matchRequest]
  dsimp only
  rw [if_neg asked, if_pos missed]

theorem candidates_barren (barren : Barren r world) (loaded : Loaded)
    (descriptions : AdMap AdTanxDescription) :
    candidates loaded descriptions world r = some [] := by
  rw [candidates, filtersMatch_eq]
  rcases barren with late | none
  · rw [matchRequest_late late]
    rfl
  · have empty : survivors loaded descriptions world r = [] := by
      rw [List.eq_nil_iff_forall_not_mem]
      intro entry inside
      obtain ⟨_, _, passes, _⟩ := (mem_survivors entry).mp inside
      exact none _ passes
    rw [empty, matchRequest_nil]
    rfl

/-- One order, at the first address. -/
def single (u : AdPlanningUnit) : Loaded where
  orders := [⟨0, u⟩]
  addresses := List.nodup_singleton _
  execIds := List.nodup_singleton _

variable {u : AdPlanningUnit}

theorem mem_survivors_single (free : world.infos = fun _ => none)
    (entry : Nat × AdRtbFilterResult) :
    entry ∈ survivors (single u) [] world r ↔
      entry = (0, ⟨false, maskOf r⟩) ∧ Passes u world.clock r := by
  have tanx : tanxAsks [] r = [] := by
    rw [tanxAsks]
    split <;> rfl
  have realTime : realTimeKeeps (orderAt (single u).orders) world.infos world.second entry := by
    simp [realTimeKeeps, free]
  rw [mem_survivors, tanx]
  obtain ⟨a, v⟩ := entry
  constructor
  · rintro ⟨known, rfl, passes, _⟩
    obtain rfl : a = 0 := List.mem_singleton.mp known
    exact ⟨rfl, passes⟩
  · rintro ⟨⟨rfl, rfl⟩, passes⟩
    exact ⟨List.mem_singleton_self _, rfl, passes, rfl, realTime⟩

theorem survivors_single (free : world.infos = fun _ => none) (passes : Passes u world.clock r) :
    survivors (single u) [] world r = [(0, ⟨false, maskOf r⟩)] := by
  refine sound_survivors.1.ext (List.pairwise_singleton _ _) fun entry => ?_
  rw [mem_survivors_single free, List.mem_singleton]
  exact and_iff_left passes

theorem survivors_single_none (free : world.infos = fun _ => none)
    (fails : ¬ Passes u world.clock r) : survivors (single u) [] world r = [] := by
  rw [List.eq_nil_iff_forall_not_mem]
  exact fun entry inside => fails ((mem_survivors_single free entry).mp inside).2

theorem candidates_single_none (free : world.infos = fun _ => none)
    (fails : ¬ Passes u world.clock r) : candidates (single u) [] world r = some [] := by
  rw [candidates, filtersMatch_eq, survivors_single_none free fails, matchRequest_nil]
  rfl

/-- Base orders are left alone by the last filter. -/
theorem matchRequest_base {unit : Nat → AdPlanningUnit} (filter : AdFilterMark)
    (bases : ∀ entry ∈ result, niceOf unit entry = adOrderBase) (inTime : ¬ Late r world) :
    ∃ executeID, filter.matchRequest unit world.user world.now r result =
      some (vipUserTag unit executeID result) := by
  have base : (result.filter fun entry => niceOf unit entry = adOrderBase) = result :=
    List.filter_eq_self.mpr fun entry inside => decide_eq_true (bases entry inside)
  have others : ∀ kind ≠ adOrderBase,
      (result.filter fun entry => niceOf unit entry = kind) = [] := by
    intro kind other
    refine List.filter_eq_nil_iff.mpr fun entry inside => ?_
    rw [bases entry inside]
    simpa using other.symm
  have silent : vipUserTag unit [] result = result := rfl
  rw [AdFilterMark.matchRequest]
  dsimp only
  rw [base, others adOrderNice (by decide), others adOrderAudience (by decide)]
  split
  case isTrue => exact ⟨[], by rw [silent]⟩
  case isFalse asked =>
    have onTime : ¬ r.checkLife world.now := by
      intro missed
      refine inTime ⟨?_, missed⟩
      by_contra neither
      push Not at neither
      exact asked ⟨by simpa using neither.1, neither.2⟩
    rw [if_neg onTime]
    cases known : (world.user (userQuery r)).isSome with
    | false => exact ⟨[], rfl⟩
    | true => exact ⟨_, rfl⟩

theorem vipUserTag_map {unit : Nat → AdPlanningUnit} (executeID : Bytes) (result : AdResult) :
    (vipUserTag unit executeID result).map Prod.fst = result.map Prod.fst := by
  rw [vipUserTag]
  split
  · rfl
  · rw [List.map_map]
    refine List.map_congr_left fun entry _ => ?_
    simp only [Function.comp_apply]
    split <;> rfl

theorem candidates_base (free : world.infos = fun _ => none) (base : u.order.nice = adOrderBase)
    (passes : Passes u world.clock r) (inTime : ¬ Late r world) :
    candidates (single u) [] world r = some [0] := by
  rw [candidates, filtersMatch_eq, survivors_single free passes]
  have bases : ∀ entry ∈ [(0, (⟨false, maskOf r⟩ : AdRtbFilterResult))],
      niceOf (orderAt (single u).orders) entry = adOrderBase := by
    intro entry inside
    rw [List.mem_singleton.mp inside]
    exact base
  obtain ⟨executeID, matched⟩ := matchRequest_base
    ((single u).orders.foldl AdFilterMark.addData {}) bases inTime
  rw [matched, Option.map_some, vipUserTag_map]
  rfl

end MatchedOrders
