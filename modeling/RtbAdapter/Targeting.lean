import RtbAdapter.CreativeKeys

/-!
# Targeting

What an order asks of a request, its day and its hour, said of the members of the
two. The ten filters in front of the bans leave the orders of which this is true:
their tables hold texts made of these members, and the bits they set add up to the
mask only when each of them has found the order.
-/

namespace Targeting

open ByteWords CText PlanningUnit RtbBase FilterTables FilterMark RtbFilters FilterReferences
open FilterResults LoadedOrders MatchedOrders FilterKeys CreativeKeys Std

/-- A slot of the order for the hour. -/
def Scheduled (u : AdPlanningUnit) (clock : LocalTime) : Prop :=
  ∃ day ∈ u.time.day, day.week.toNat = clock.week ∧
    day.hour &&& ((1 : UInt32) <<< UInt32.ofNat clock.hour) ≠ 0

/-- A rule admits all places of its exchange, those it lists, or those in a site category it
lists. Texts end at their first NUL. -/
def AdmitsPlace (pid : AdPidInfo) (r : AdRtbRequest) : Prop :=
  pid.mode = adPidModeAll ∨
    pid.mode = adPidModeFixed ∧ (∃ p ∈ pid.pidList, cStr p = cStr (r.text .pId)) ∨
    pid.mode = adPidModeOther ∧
      ∃ p ∈ pid.pidList, ∃ category ∈ r.list .siteCategory, cStr p = cStr category

/-- Some number is zero, or is in a list of the request. -/
def Listed (numbers : List UInt32) (texts : List Bytes) : Prop :=
  0 ∈ numbers ∨ ∃ n ∈ numbers, decimalUInt n ∈ texts.map cStr

/-- The size of a video, when the request has one. -/
def videoSize (r : AdRtbRequest) : Option (UInt32 × UInt32) :=
  match strSplit (r.text .size) (ascii "x") with
  | [width, height] => some (atoiUInt (cStr width), atoiUInt (cStr height))
  | _ => none

/-- The order is for requests like this one, at this hour. -/
structure Targets (u : AdPlanningUnit) (clock : LocalTime) (r : AdRtbRequest) : Prop where
  push : u.time.push
  time : Scheduled u clock
  adExchange : ∃ pid ∈ u.pidInfo, pid.adxId = r.adx
  pid : ∃ pid ∈ u.pidInfo, pid.adxId = r.adx ∧ AdmitsPlace pid r
  area : adAreaAll ∈ u.area ∨ r.text .area ∈ u.area
  size : ∃ create ∈ creatives u, create.adxId = decimalUInt r.adx ∧ create.creativeGroupId ≠ [] ∧
    ∃ m ∈ create.materials, sizeText m = cStr (r.text .size)
  userAgent : u.mobile.userAgentType = [] ∨ Listed u.mobile.userAgentType (r.list .ualist)
  mobileOperator : flowOf r = adProtocolFlowMobile →
    Listed u.mobile.operator (r.list .mobileOperator)
  mobileDevice : flowOf r = adProtocolFlowMobile →
    Listed u.mobile.deviceType (r.list .mobileDevice)
  mobileConnect : flowOf r = adProtocolFlowMobile →
    Listed u.mobile.connectType (r.list .mobileConnect)
  mobile : flowOf r = adProtocolFlowMobile → u.mobile.enable = true
  pc : flowOf r = adProtocolFlowPc → u.mobile.enable = false
  viewScreen : u.order.adViewScreen = [] ∨
    ∃ screen ∈ u.order.adViewScreen, screen = 0 ∨ atoiUInt (cStr (r.text .adViewScreen)) ≤ screen
  viewType : u.order.adViewType = [] ∨
    ∃ type ∈ u.order.adViewType, type = 0 ∨ type = atoiUInt (cStr (r.text .adViewType))
  video : flowOf r = adProtocolFlowVideo → ∃ width height, videoSize r = some (width, height) ∧
    0 < height ∧ 0 < width ∧ ∃ create, u.creativeInfo[r.adx]? = some create ∧
      ∃ m ∈ create.materials, m.height = height ∧ m.width = width

/-- What the orders are promised to be: places and categories are named by at most 100 characters,
and no place is named as all places are. -/
structure Tame (u : AdPlanningUnit) : Prop where
  canonical : Canonical u.creativeInfo
  places : ∀ pid ∈ u.pidInfo, ∀ p ∈ pid.pidList,
    p.length ≤ 100 ∧ (pid.mode = adPidModeFixed → cStr p ≠ ascii "ALL")

variable {loaded : Loaded} {world : MatchWorld} {r : AdRtbRequest} {u : AdPlanningUnit}
  {clock : LocalTime}

theorem got_whenPushed {asks keys : List Bytes} :
    got asks (whenPushed u keys) ↔ u.time.push ∧ got asks keys := by
  rw [whenPushed]
  split
  · next push => simp [push]
  · next still => simp [still, got]

theorem got_time (named : clock.week < adWeekDays) (here : clock.hour < adDayHours) :
    got (timeAsks clock) (timeKeys u) ↔ u.time.push ∧ Scheduled u clock := by
  rw [timeKeys, got_whenPushed, got_iff, timeAsks, Scheduled]
  refine and_congr_right fun _ => ?_
  constructor
  · rintro ⟨key, asked, listed⟩
    rw [List.mem_singleton] at asked
    obtain ⟨day, among, filed⟩ := List.mem_flatMap.mp listed
    obtain ⟨hour, slot, same⟩ := List.mem_map.mp filed
    obtain ⟨inside, set⟩ := List.mem_filter.mp slot
    rw [asked, hourKey_eq_iff named (List.mem_range.mp inside) here] at same
    obtain ⟨week, rfl⟩ := same
    exact ⟨day, among, week, of_decide_eq_true set⟩
  · rintro ⟨day, among, week, set⟩
    refine ⟨_, List.mem_singleton_self _, List.mem_flatMap.mpr ⟨day, among, ?_⟩⟩
    refine List.mem_map.mpr ⟨clock.hour, List.mem_filter.mpr ⟨List.mem_range.mpr here, ?_⟩, ?_⟩
    · exact decide_eq_true set
    · exact (hourKey_eq_iff named here here).mpr ⟨week, rfl⟩

theorem got_adExchange (some' : r.adx ≠ 0) :
    got (adExchangeAsks r) (adExchangeKeys u) ↔
      u.time.push ∧ ∃ pid ∈ u.pidInfo, pid.adxId = r.adx := by
  rw [adExchangeKeys, got_whenPushed, got_iff, adExchangeAsks]
  refine and_congr_right fun _ => ?_
  constructor
  · rintro ⟨key, asked, listed⟩
    rw [List.mem_singleton] at asked
    obtain ⟨pid, kept, same⟩ := List.mem_map.mp listed
    exact ⟨pid, List.mem_of_mem_filter kept, adExchangeKey_injective (same.trans asked)⟩
  · rintro ⟨pid, among, same⟩
    refine ⟨_, List.mem_singleton_self _,
      List.mem_map.mpr ⟨pid, List.mem_filter.mpr ⟨among, ?_⟩, ?_⟩⟩
    · rw [same]
      exact decide_eq_true some'
    · rw [same]

/-- The keys that a request asks for, for its place. -/
theorem mem_pidAsks {key : Bytes} :
    key ∈ pidAsks r ↔ key = adxKey r.adx (ascii "ALL") ∨ key = adxKey r.adx (r.text .pId) ∨
      ∃ category ∈ r.list .siteCategory, otherKey r.adx category = key := by
  rw [pidAsks, allKey_eq]
  simp

theorem got_rule {pid : AdPidInfo}
    (places : ∀ p ∈ pid.pidList,
      p.length ≤ 100 ∧ (pid.mode = adPidModeFixed → cStr p ≠ ascii "ALL")) :
    (∃ key ∈ pidAsks r, key ∈ pidKeysOf pid) ↔ pid.adxId = r.adx ∧ AdmitsPlace pid r := by
  have modes : adPidModeFixed ≠ adPidModeAll ∧ adPidModeOther ≠ adPidModeAll ∧
      adPidModeOther ≠ adPidModeFixed := by decide
  have short : (ascii "ALL").length ≤ 100 := by decide
  have whole : cStr (ascii "ALL") = ascii "ALL" := by decide
  rw [pidKeysOf, AdmitsPlace, allKey_eq]
  split
  · next all =>
    constructor
    · rintro ⟨key, asked, listed⟩
      rw [List.mem_singleton] at listed
      rw [mem_pidAsks, listed] at asked
      rcases asked with same | same | ⟨category, -, same⟩
      · exact ⟨((adxKey_eq_iff short).mp same).1, .inl all⟩
      · exact ⟨((adxKey_eq_iff short).mp same).1, .inl all⟩
      · exact absurd same.symm (adxKey_ne_otherKey short)
    · rintro ⟨same, -⟩
      exact ⟨_, mem_pidAsks.mpr (.inl rfl), by rw [same]; exact List.mem_singleton_self _⟩
  split
  · next other fixed =>
    constructor
    · rintro ⟨key, asked, listed⟩
      obtain ⟨p, among, named⟩ := List.mem_map.mp listed
      obtain ⟨small, free⟩ := places p among
      rw [mem_pidAsks, ← named] at asked
      rcases asked with same | same | ⟨category, -, same⟩
      · exact absurd (((adxKey_eq_iff small).mp same).2.trans whole) (free fixed)
      · obtain ⟨adx, text⟩ := (adxKey_eq_iff small).mp same
        exact ⟨adx, .inr (.inl ⟨fixed, p, among, text⟩)⟩
      · exact absurd same.symm (adxKey_ne_otherKey small)
    · rintro ⟨adx, all | ⟨-, p, among, text⟩ | ⟨mode, -⟩⟩
      · exact absurd all other
      · refine ⟨_, mem_pidAsks.mpr (.inr (.inl rfl)), List.mem_map.mpr ⟨p, among, ?_⟩⟩
        exact (adxKey_eq_iff (places p among).1).mpr ⟨adx, text⟩
      · exact absurd (mode.symm.trans fixed) modes.2.2
  split
  · next other unfixed listedOnly =>
    constructor
    · rintro ⟨key, asked, listed⟩
      obtain ⟨p, among, named⟩ := List.mem_map.mp listed
      obtain ⟨small, -⟩ := places p among
      rw [mem_pidAsks, ← named] at asked
      rcases asked with same | same | ⟨category, inside, same⟩
      · exact absurd same (otherKey_ne_adxKey small)
      · exact absurd same (otherKey_ne_adxKey small)
      · obtain ⟨adx, text⟩ := (otherKey_eq_iff small).mp same.symm
        exact ⟨adx, .inr (.inr ⟨listedOnly, p, among, category, inside, text⟩)⟩
    · rintro ⟨adx, all | ⟨mode, -⟩ | ⟨-, p, among, category, inside, text⟩⟩
      · exact absurd all other
      · exact absurd mode unfixed
      · refine ⟨_, mem_pidAsks.mpr (.inr (.inr ⟨category, inside, rfl⟩)),
          List.mem_map.mpr ⟨p, among, ?_⟩⟩
        exact (otherKey_eq_iff (places p among).1).mpr ⟨adx, text⟩
  · next other unfixed unlisted =>
    constructor
    · rintro ⟨key, -, listed⟩
      exact absurd listed List.not_mem_nil
    · rintro ⟨-, all | ⟨mode, -⟩ | ⟨mode, -⟩⟩
      · exact absurd all other
      · exact absurd mode unfixed
      · exact absurd mode unlisted

theorem got_pid (places : ∀ pid ∈ u.pidInfo, ∀ p ∈ pid.pidList,
      p.length ≤ 100 ∧ (pid.mode = adPidModeFixed → cStr p ≠ ascii "ALL")) :
    got (pidAsks r) (pidKeys u) ↔
      u.time.push ∧ ∃ pid ∈ u.pidInfo, pid.adxId = r.adx ∧ AdmitsPlace pid r := by
  rw [pidKeys, got_whenPushed, got_iff]
  refine and_congr_right fun _ => ?_
  constructor
  · rintro ⟨key, asked, listed⟩
    obtain ⟨pid, among, filed⟩ := List.mem_flatMap.mp listed
    exact ⟨pid, among, (got_rule (places pid among)).mp ⟨key, asked, filed⟩⟩
  · rintro ⟨pid, among, admits⟩
    obtain ⟨key, asked, filed⟩ := (got_rule (places pid among)).mpr admits
    exact ⟨key, asked, List.mem_flatMap.mpr ⟨pid, among, filed⟩⟩

theorem got_area : got (areaAsks r) (areaKeys u) ↔
    u.time.push ∧ (adAreaAll ∈ u.area ∨ r.text .area ∈ u.area) := by
  rw [areaKeys, got_whenPushed, got_iff, areaAsks]
  simp

theorem got_numbers {texts : List Bytes} {numbers : List UInt32} :
    got (numberAsks texts) (numbers.map numberKey) ↔ Listed numbers texts := by
  have zero : ascii "0" = numberKey 0 := by decide
  have same : ∀ {m n : UInt32}, numberKey m = numberKey n ↔ m = n := by
    intro m n
    rw [numberKey_eq, numberKey_eq, decimalUInt_injective.eq_iff]
  rw [got_iff, numberAsks, Listed, zero]
  simp only [List.mem_cons, List.mem_map]
  constructor
  · rintro ⟨key, rfl | ⟨text, among, rfl⟩, n, listed, named⟩
    · exact .inl (same.mp named ▸ listed)
    · exact .inr ⟨n, listed, text, among, numberAsk_eq_iff.mp named.symm⟩
  · rintro (none | ⟨n, listed, text, among, named⟩)
    · exact ⟨_, .inl rfl, 0, none, rfl⟩
    · exact ⟨_, .inr ⟨text, among, rfl⟩, n, listed, (numberAsk_eq_iff.mpr named).symm⟩

theorem got_userAgent : got (userAgentAsks r) (userAgentKeys u) ↔
    u.mobile.userAgentType = [] ∨ Listed u.mobile.userAgentType (r.list .ualist) := by
  rw [userAgentAsks, userAgentKeys]
  split
  · next none =>
    refine iff_of_true ?_ (.inl none)
    rw [got_iff]
    exact ⟨ascii "0", List.mem_cons_self, List.mem_singleton_self _⟩
  · next some' => rw [got_numbers, or_iff_right some']

theorem parameterKeeps_eq : parameterKeeps (fun _ => u) r (0, ⟨false, maskOf r⟩) =
    (!((flowOf r = adProtocolFlowMobile && !u.mobile.enable) ||
        (flowOf r = adProtocolFlowPc && u.mobile.enable)) &&
      (u.order.adViewScreen = [] || u.order.adViewScreen.any fun screen =>
        screen = 0 || atoiUInt (cStr (r.text .adViewScreen)) ≤ screen) &&
      (u.order.adViewType = [] || u.order.adViewType.any fun type =>
        type = 0 || type = atoiUInt (cStr (r.text .adViewType))) &&
      (flowOf r ≠ adProtocolFlowVideo ||
        (0 < ((videoSize r).getD (0, 0)).2 && 0 < ((videoSize r).getD (0, 0)).1 &&
          ((u.creativeInfo[r.adx]?).getD {}).materials.any fun m =>
            m.height = ((videoSize r).getD (0, 0)).2 &&
              m.width = ((videoSize r).getD (0, 0)).1))) := by
  have mask : decide (maskOf r = if flowOf r = adProtocolFlowMobile then
      adFilterNormal ||| adFilterMobile else adFilterNormal) = true := decide_eq_true rfl
  rw [parameterKeeps, videoSize]
  dsimp only
  rw [mask, Bool.true_and]
  rcases strSplit (r.text .size) (ascii "x") with _ | ⟨width, _ | ⟨height, _ | _⟩⟩ <;> rfl

theorem parameter_iff : parameterKeeps (fun _ => u) r (0, ⟨false, maskOf r⟩) ↔
    ((flowOf r = adProtocolFlowMobile → u.mobile.enable = true) ∧
      (flowOf r = adProtocolFlowPc → u.mobile.enable = false)) ∧
      (u.order.adViewScreen = [] ∨ ∃ screen ∈ u.order.adViewScreen,
        screen = 0 ∨ atoiUInt (cStr (r.text .adViewScreen)) ≤ screen) ∧
      (u.order.adViewType = [] ∨ ∃ type ∈ u.order.adViewType,
        type = 0 ∨ type = atoiUInt (cStr (r.text .adViewType))) ∧
      (flowOf r = adProtocolFlowVideo → ∃ width height, videoSize r = some (width, height) ∧
        0 < height ∧ 0 < width ∧ ∃ create, u.creativeInfo[r.adx]? = some create ∧
          ∃ m ∈ create.materials, m.height = height ∧ m.width = width) := by
  have video : (∃ width height, videoSize r = some (width, height) ∧ 0 < height ∧ 0 < width ∧
      ∃ create, u.creativeInfo[r.adx]? = some create ∧
        ∃ m ∈ create.materials, m.height = height ∧ m.width = width) ↔
      (0 < ((videoSize r).getD (0, 0)).2 ∧ 0 < ((videoSize r).getD (0, 0)).1) ∧
        ∃ m ∈ ((u.creativeInfo[r.adx]?).getD {}).materials,
          m.height = ((videoSize r).getD (0, 0)).2 ∧ m.width = ((videoSize r).getD (0, 0)).1 := by
    cases videoSize r with
    | none => simp
    | some size =>
      obtain ⟨width, height⟩ := size
      constructor
      · rintro ⟨_, _, same, tall, wide, create, found, m, among, fits⟩
        obtain ⟨rfl, rfl⟩ := Prod.mk.inj (Option.some.inj same)
        refine ⟨⟨tall, wide⟩, m, ?_, fits⟩
        rw [found]
        exact among
      · rintro ⟨⟨tall, wide⟩, m, among, fits⟩
        cases found : u.creativeInfo[r.adx]? with
        | none =>
          rw [found] at among
          exact absurd among List.not_mem_nil
        | some create =>
          rw [found] at among
          exact ⟨width, height, rfl, tall, wide, create, rfl, m, among, fits⟩
  rw [parameterKeeps_eq, video]
  simp only [Bool.and_eq_true, Bool.or_eq_true, Bool.not_eq_true', Bool.or_eq_false_iff,
    Bool.and_eq_false_iff, decide_eq_true_eq, decide_eq_false_iff_not, List.any_eq_true,
    Bool.not_eq_false', ne_eq, ← Decidable.imp_iff_not_or, and_assoc]

/-- An order that every table finds and that has the right members is for the request. -/
theorem targets_iff (tame : Tame u) (named : clock.week < adWeekDays)
    (here : clock.hour < adDayHours) (some' : r.adx ≠ 0) :
    Asked u clock r ∧ parameterKeeps (fun _ => u) r (0, ⟨false, maskOf r⟩) ↔
      Targets u clock r := by
  have push : ∀ (keys : List UInt32) (texts : List Bytes),
      got (numberAsks texts) (whenPushed u (keys.map numberKey)) ↔
        u.time.push ∧ Listed keys texts := fun keys texts => by rw [got_whenPushed, got_numbers]
  rw [parameter_iff]
  constructor
  · rintro ⟨asked, ⟨mobile, pc⟩, viewScreen, viewType, video⟩
    obtain ⟨pushed, scheduled⟩ := (got_time named here).mp asked.time
    exact
      { push := pushed
        time := scheduled
        adExchange := ((got_adExchange some').mp asked.adExchange).2
        pid := ((got_pid tame.places).mp asked.pid).2
        area := (got_area.mp asked.area).2
        size := ((got_size tame.canonical).mp asked.size).2
        userAgent := got_userAgent.mp asked.userAgent
        mobileOperator := fun flow => ((push _ _).mp (asked.mobileOperator flow)).2
        mobileDevice := fun flow => ((push _ _).mp (asked.mobileDevice flow)).2
        mobileConnect := fun flow => ((push _ _).mp (asked.mobileConnect flow)).2
        mobile, pc, viewScreen, viewType, video }
  · intro targets
    have pushed := targets.push
    refine ⟨?_, ⟨targets.mobile, targets.pc⟩, targets.viewScreen, targets.viewType, targets.video⟩
    exact
      { time := (got_time named here).mpr ⟨pushed, targets.time⟩
        adExchange := (got_adExchange some').mpr ⟨pushed, targets.adExchange⟩
        pid := (got_pid tame.places).mpr ⟨pushed, targets.pid⟩
        area := got_area.mpr ⟨pushed, targets.area⟩
        size := (got_size tame.canonical).mpr ⟨pushed, targets.size⟩
        userAgent := got_userAgent.mpr targets.userAgent
        mobileOperator := fun flow => (push _ _).mpr ⟨pushed, targets.mobileOperator flow⟩
        mobileDevice := fun flow => (push _ _).mpr ⟨pushed, targets.mobileDevice flow⟩
        mobileConnect := fun flow => (push _ _).mpr ⟨pushed, targets.mobileConnect flow⟩ }

/-- The result after the filters from the time to the parameters. -/
def targeted (loaded : Loaded) (descriptions : AdMap AdTanxDescription) (world : MatchWorld)
    (r : AdRtbRequest) : Option AdResult :=
  runFilters ((chain (orderAt loaded.orders) { build loaded.orders with descriptions } world r).take
    10) []

/-- The ten filters come to the tables, of which the last one keeps what has the mask. -/
theorem targeted_eq {descriptions : AdMap AdTanxDescription} :
    targeted loaded descriptions world r =
      some ((tables loaded world.clock r).filter (parameterKeeps (orderAt loaded.orders) r)) := by
  rw [targeted, build_eq]
  let keeps : AdResult → AdResult := fun result =>
    result.filter (parameterKeeps (orderAt loaded.orders) r)
  change runFilters ((tableFilters world.clock r).map
    (fun filter result => some (filter.run loaded result)) ++ [fun result => some (keeps result)])
      [] = some (keeps (tables loaded world.clock r))
  have last : ∀ result, runFilters [fun result => some (keeps result)] result =
      some (keeps result) := by
    intro result
    rw [runFilters_some, runFilters]
    split
    · next none => rw [none]
    · rfl
  rw [tableFilters, List.map_cons, List.cons_append, runFilters_some]
  split
  · next nothing => exact congrArg some (untimed nothing).symm
  · next some' =>
    rw [runFilters_tables _ _ some', last]
    rfl

/-- A run over some filters goes on with what they leave. -/
theorem runFilters_append {filters : List (AdResult → Option AdResult)}
    (later : List (AdResult → Option AdResult)) {result : AdResult}
    (goes : filters ≠ [] ∨ result ≠ []) :
    runFilters (filters ++ later) result = (runFilters filters result).bind fun result =>
      if result = [] then some [] else runFilters later result := by
  induction filters generalizing result with
  | nil =>
    have some' : result ≠ [] := goes.resolve_left (not_not_intro rfl)
    rw [List.nil_append, runFilters, Option.bind_some, if_neg some']
  | cons filter filters ih =>
    rw [List.cons_append, runFilters, runFilters]
    cases filter result with
    | none => rfl
    | some next =>
      rw [Option.bind_eq_bind, Option.bind_some, Option.bind_some]
      split
      · rfl
      · next some' => exact ih (.inr some')

/-- `FiltersMatch` goes on from there. -/
theorem filtersMatch_targeted (descriptions : AdMap AdTanxDescription) :
    filtersMatch (orderAt loaded.orders) { build loaded.orders with descriptions } world r =
      (targeted loaded descriptions world r).bind fun result =>
        if result = [] then some []
        else runFilters ((chain (orderAt loaded.orders) { build loaded.orders with descriptions }
          world r).drop 10) result := by
  rw [filtersMatch, targeted, ← runFilters_append _ (.inl (by simp [chain])),
    List.take_append_drop]

variable (world r) in
/-- After the filters from the time to the parameters the orders are left that are for the
request. -/
theorem targeted_iff (descriptions : AdMap AdTanxDescription)
    (tame : ∀ placed ∈ loaded.orders, Tame placed.unit) (named : world.clock.week < adWeekDays)
    (here : world.clock.hour < adDayHours) (some' : r.adx ≠ 0) :
    ∃ result, targeted loaded descriptions world r = some result ∧
      (∀ entry ∈ result, entry.1 ∈ loaded.orders.map Allocated.address) ∧
      ∀ placed ∈ loaded.orders, (placed.address ∈ result.map Prod.fst ↔
        Targets placed.unit world.clock r) := by
  have sound := (sound_asked loaded world.clock r).filter (parameterKeeps (orderAt loaded.orders) r)
  refine ⟨_, targeted_eq, sound.2, fun placed inside => ?_⟩
  have unit := orderAt_address loaded.addresses inside
  have parameter : parameterKeeps (orderAt loaded.orders) r (placed.address, ⟨false, maskOf r⟩) =
      parameterKeeps (fun _ => placed.unit) r (0, ⟨false, maskOf r⟩) := by
    rw [parameterKeeps, parameterKeeps, unit]
  rw [← targets_iff (tame placed inside) named here some', ← parameter]
  constructor
  · intro listed
    obtain ⟨⟨a, v⟩, kept, same⟩ := List.mem_map.mp listed
    obtain rfl : a = placed.address := same
    obtain ⟨among, keeps⟩ := List.mem_filter.mp kept
    obtain ⟨-, rfl, asked⟩ := (mem_tables_mask v).mp ⟨among, parameterKeeps_mask keeps⟩
    rw [unit] at asked
    exact ⟨asked, keeps⟩
  · rintro ⟨asked, keeps⟩
    rw [← unit] at asked
    obtain ⟨among, -⟩ := (mem_tables_mask _).mpr
      ⟨List.mem_map_of_mem inside, rfl, asked⟩
    exact List.mem_map.mpr ⟨_, List.mem_filter.mpr ⟨among, keeps⟩, rfl⟩

/-- An order for all places of exchange 1 is left for a banner of its size. -/
theorem banner_targets :
    Targets bannerOrder quietWorld.clock (sizedRequest (ascii "300x250")) := by
  have tame : ∀ placed ∈ (single bannerOrder).orders, Tame placed.unit := by
    intro placed inside
    obtain rfl := List.mem_singleton.mp inside
    refine ⟨banner_canonical, fun pid among p listed => ?_⟩
    rw [List.mem_singleton.mp among] at listed
    exact absurd listed List.not_mem_nil
  obtain ⟨result, ran, -, left⟩ := targeted_iff quietWorld
    (sizedRequest (ascii "300x250")) [] tame (by decide) (by decide) (by decide)
  have done : targeted (single bannerOrder) [] quietWorld (sizedRequest (ascii "300x250")) =
      some bannerResult := by
    decide
  obtain rfl := Option.some.inj (done.symm.trans ran)
  exact (left _ (List.mem_singleton_self _)).mp (.head _)

end Targeting
