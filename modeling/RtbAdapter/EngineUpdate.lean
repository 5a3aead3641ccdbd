import RtbAdapter.OrderPlaces

/-!
# What one engine update does

Whether each stage of an update succeeds is a matter of the answers it gets. An
update either comes to its end, and then the filters in use are new ones over the
visible orders, or the filters in use stay.
-/

namespace EngineUpdate

open ByteWords JsonValues PingPong PlanningUnit PlanningData PlanningUpdate FilterTables RtbFilters
open RtbEngine OrderPlaces Std
open NetProtocol (adSuccess adFailure)

section Answers

variable (redis : Redis)

/-- The timestamp is read, and is the one of the visible orders. -/
structure Unchanged (s : AdPlanningData) : Prop where
  connect : redis.ok .dataConnect
  timestamp : redis.ok .timestamp
  same : redis.timestamp = s.lastTimeStamp

/-- Every price is answered. -/
structure PricesAnswered : Prop where
  connect : redis.ok .priceConnect
  keys : redis.ok .seniorKeys
  prices : ∀ key ∈ redis.seniorKeys.zipIdx, redis.ok (.senior key.2)

/-- There are orders, and their banned places are all answered. -/
structure PlacesAnswered {β : Type} (orders : TreeMap UInt32 β) : Prop where
  present : orders.isEmpty = false
  connect : redis.ok .filterConnect
  places : ∀ id ∈ orders, redis.ok (.pidKeys id)

end Answers

/-- The files and the task that new filters need are there. -/
structure InitReady (world : UpdateWorld) (now : Option Filters) : Prop where
  tanx : .tanxContent ∈ world.changed ∨ .tanxDescription ∈ world.changed → world.tanx.isSome
  realTime : now.isNone → world.realTime

/-- The configuration allows new filters, which find what they need. -/
structure FiltersReady (world : UpdateWorld) (now : Option Filters) : Prop where
  config : world.changed = [] ∨ .config ∉ world.changed ∧ world.dealRank
  init : InitReady world now

/-- Orders with a new timestamp are read, written back, and get their prices and places. -/
structure Renewed (parse : Bytes → Option JsonValue) (calendar : Calendar) (redis : Redis) :
    Prop where
  read : OrdersRead parse calendar redis
  writes : SystemWrites parse calendar redis
  prices : PricesAnswered redis
  places : PlacesAnswered redis (storedOrders parse calendar redis)

/-- The update comes to its end. -/
structure Completes (parse : Bytes → Option JsonValue) (world : UpdateWorld) (e : AdRtbEngine) :
    Prop where
  data : Unchanged world.redis e.data ∧ PlacesAnswered world.redis e.data.data.get ∨
    Clears world.redis e.data ∧ Renewed parse world.calendar world.redis
  filters : FiltersReady world e.filters.get

variable {parse : Bytes → Option JsonValue} {calendar : Calendar} {redis : Redis}
  {world : UpdateWorld} {s s' : AdPlanningData} {e e' : AdRtbEngine} {ret : Int}

theorem Unchanged.not_clears (unchanged : Unchanged redis s) : ¬ Clears redis s :=
  fun clears => clears.changed unchanged.same

theorem dataUpdate_success_iff {u : Updated}
    (called : s.dataUpdate parse calendar redis = some u) :
    u.ret = adSuccess ↔ Unchanged redis s ∨
      Clears redis s ∧ OrdersRead parse calendar redis ∧ SystemWrites parse calendar redis := by
  by_cases clears : Clears redis s
  · have renewed : ¬ Unchanged redis s := fun unchanged => unchanged.not_clears clears
    by_cases read : OrdersRead parse calendar redis
    · obtain ⟨loading, holds, done⟩ := dataUpdate_reads clears read
      obtain rfl : _ = u := Option.some.inj (done.symm.trans called)
      simpa [renewed, clears, read] using dataUpdateForSystem_iff holds
    · obtain ⟨_, _, _, failed⟩ := dataUpdate_breaks clears read called
      simp [renewed, read, failed]
  · simp only [clears, false_and, or_false]
    rw [AdPlanningData.dataUpdate] at called
    split at called
    · cases called
      simp only [failure_ne_success, false_iff]
      exact fun unchanged => by simp_all [unchanged.connect]
    split at called
    · cases called
      simp only [failure_ne_success, false_iff]
      exact fun unchanged => by simp_all [unchanged.timestamp]
    split at called
    case isTrue same =>
      cases called
      simp only [true_iff]
      exact ⟨by simp_all, by simp_all, same⟩
    split at called
    · cases called
      simp only [failure_ne_success, false_iff]
      exact fun unchanged => absurd unchanged.same (by assumption)
    · exact absurd ⟨by simp_all, by simp_all, by assumption, by simp_all⟩ clears

/-- A successful update of the orders reports a size exactly when it has new ones. -/
theorem dataUpdate_size_iff {u : Updated} (called : s.dataUpdate parse calendar redis = some u)
    (success : u.ret = adSuccess) : u.size ≠ 0 ↔ Clears redis s := by
  rcases (dataUpdate_success_iff called).mp success with unchanged | ⟨clears, read, writes⟩
  · obtain ⟨_, size, _⟩ := dataUpdate_keeps unchanged.not_clears called
    simp [size, unchanged.not_clears]
  · obtain ⟨loading, holds, done⟩ := dataUpdate_reads clears read
    obtain rfl : _ = u := Option.some.inj (done.symm.trans called)
    have filled : loading.map.isEmpty = false := by
      by_contra empty
      have written : dataUpdateForSystem redis loading.map = adSuccess := success
      rw [dataUpdateForSystem, if_pos (by simpa using empty)] at written
      exact failure_ne_success written
    rw [TreeMap.isEmpty_eq_size_eq_zero] at filled
    simpa [clears] using filled

theorem loadPrices_success_iff {keys : List (Bytes × Nat)} {table after : PriceTable}
    (loaded : loadPrices parse redis keys table = some (ret, after)) :
    ret = adSuccess ↔ ∀ key ∈ keys, redis.ok (.senior key.2) := by
  induction keys generalizing table with
  | nil =>
    cases loaded
    simp
  | cons key keys ih =>
    rw [loadPrices] at loaded
    rw [List.forall_mem_cons]
    split at loaded
    case isTrue ok =>
      obtain ⟨middle, _, loaded⟩ := Option.bind_eq_some_iff.mp loaded
      rw [ih loaded]
      simp [ok]
    case isFalse failed =>
      cases loaded
      simp [failed]

theorem readPrices_success_iff {table : PriceTable}
    (read : readPrices parse redis = some (ret, table)) :
    ret = adSuccess ↔ PricesAnswered redis := by
  rw [readPrices] at read
  split at read
  case isTrue ok =>
    rw [loadPrices_success_iff read]
    exact ⟨fun prices => ⟨ok.1, ok.2, prices⟩, PricesAnswered.prices⟩
  case isFalse failed =>
    cases read
    simp only [failure_ne_success, false_iff]
    exact fun answered => failed ⟨answered.connect, answered.keys⟩

/-- A stage leaves every order where it is. -/
structure Stays (s s' : AdPlanningData) : Prop where
  visible : SamePlaces s.data.get s'.data.get
  back : s'.data.getBack = s.data.getBack
  nextAddress : s'.nextAddress = s.nextAddress

theorem Stays.refl (s : AdPlanningData) : Stays s s := ⟨.refl _, rfl, rfl⟩

theorem Stays.trans {s middle s' : AdPlanningData} (first : Stays s middle)
    (second : Stays middle s') : Stays s s' :=
  ⟨first.visible.trans second.visible, second.back.trans first.back,
    second.nextAddress.trans first.nextAddress⟩

theorem dataUpdateAdvancedPriceData_cases
    (called : s.dataUpdateAdvancedPriceData parse redis = some (ret, s')) :
    (ret = adSuccess ↔ PricesAnswered redis) ∧ Stays s s' := by
  rw [AdPlanningData.dataUpdateAdvancedPriceData] at called
  obtain ⟨⟨ret', entries⟩, read, called⟩ := Option.bind_eq_some_iff.mp called
  have answered := readPrices_success_iff read
  dsimp only at called
  split at called
  · cases called
    exact ⟨answered, by simpa using withPrice_places _ _, by simp, rfl⟩
  · cases called
    exact ⟨answered, .refl _, rfl, rfl⟩

theorem loadPids_success_iff (redis : Redis) (entries : List (UInt32 × Allocated))
    (map : OrderMap) :
    (loadPids redis entries map).1 = adSuccess ↔ ∀ e ∈ entries, redis.ok (.pidKeys e.1) := by
  induction entries generalizing map with
  | nil => simp [loadPids]
  | cons entry entries ih =>
    rw [loadPids, List.forall_mem_cons]
    split
    case isTrue ok =>
      rw [ih]
      simp [ok]
    case isFalse failed => simp [failed]

theorem forall_toList_iff {map : OrderMap} {p : UInt32 → Prop} :
    (∀ e ∈ map.toList, p e.1) ↔ ∀ id ∈ map, p id := by
  constructor
  · intro all id inside
    obtain ⟨placed, found⟩ :=
      TreeMap.mem_iff_isSome_getElem?.trans Option.isSome_iff_exists |>.mp inside
    exact all (id, placed) (TreeMap.mem_toList_iff_getElem?_eq_some.mpr found)
  · rintro all ⟨id, placed⟩ inside
    have found := TreeMap.mem_toList_iff_getElem?_eq_some.mp inside
    exact all id (TreeMap.mem_iff_isSome_getElem?.mpr (by simp [found]))

theorem dataUpdateAdvancedFilterResult_success_iff (redis : Redis) (s : AdPlanningData) :
    (s.dataUpdateAdvancedFilterResult redis).1 = adSuccess ↔
      PlacesAnswered redis s.data.get := by
  rw [AdPlanningData.dataUpdateAdvancedFilterResult]
  split
  case isTrue empty =>
    simp only [failure_ne_success, false_iff]
    exact fun answered => by simp [answered.present] at empty
  split
  case isTrue failed =>
    simp only [failure_ne_success, false_iff]
    exact fun answered => by simp [answered.connect] at failed
  case isFalse filled connected =>
    have places := loadPids_success_iff redis s.data.get.toList s.data.get
    rw [forall_toList_iff (p := fun id => redis.ok (.pidKeys id))] at places
    refine places.trans ?_
    exact ⟨fun places => ⟨by simpa using filled, by simpa using connected, places⟩,
      PlacesAnswered.places⟩

theorem dataUpdateAdvancedFilterResult_stays (redis : Redis) (s : AdPlanningData) :
    Stays s (s.dataUpdateAdvancedFilterResult redis).2 := by
  rw [AdPlanningData.dataUpdateAdvancedFilterResult]
  split
  · exact .refl s
  split
  · exact .refl s
  · exact ⟨by simpa using loadPids_places get_toList (.refl _), by simp, rfl⟩

/-- The filters in use are new ones over the visible orders. -/
def Built (e : AdRtbEngine) : Prop :=
  ∃ descriptions, e.filters.get =
    some { build (e.data.data.get.toList.map Prod.snd) with descriptions }

theorem tanxInit_cases {now : Option Filters} {back after : Filters}
    (called : tanxInit world now back = some (ret, after)) :
    (ret = adSuccess ↔
        (.tanxContent ∈ world.changed ∨ .tanxDescription ∈ world.changed → world.tanx.isSome)) ∧
      ∃ descriptions, after = { back with descriptions } := by
  rw [tanxInit] at called
  split at called
  case isTrue changed =>
    cases read : world.tanx with
    | some descriptions =>
      rw [read] at called
      cases called
      exact ⟨by simp, descriptions, rfl⟩
    | none =>
      rw [read] at called
      cases called
      exact ⟨iff_of_false failure_ne_success fun ready => by simpa using ready changed,
        back.descriptions, rfl⟩
  case isFalse same =>
    obtain ⟨now, _, called⟩ := Option.map_eq_some_iff.mp called
    cases called
    exact ⟨by simp [same], now.descriptions, rfl⟩

theorem filtersInit_cases {now : Option Filters} {back after : Filters}
    (called : filtersInit world now back = some (ret, after)) :
    (ret = adSuccess ↔ InitReady world now) ∧
      ∃ descriptions, after = { back with descriptions } := by
  rw [filtersInit] at called
  obtain ⟨⟨ret', middle⟩, tanx, called⟩ := Option.bind_eq_some_iff.mp called
  obtain ⟨success, made⟩ := tanxInit_cases tanx
  dsimp only at called
  split at called
  case isTrue failed =>
    cases called
    refine ⟨?_, made⟩
    simp only [failure_ne_success, false_iff]
    exact fun ready => failed (success.mpr ready.tanx)
  case isFalse read =>
    split at called
    case isTrue idle =>
      cases called
      refine ⟨?_, made⟩
      simp only [failure_ne_success, false_iff]
      intro ready
      obtain ⟨none, stopped⟩ := Bool.and_eq_true_iff.mp idle
      simp [ready.realTime none] at stopped
    case isFalse running =>
      split at called
      · cases called
      cases called
      refine ⟨?_, made⟩
      simp only [true_iff]
      refine ⟨success.mp (not_not.mp read), fun none => ?_⟩
      simpa [none] using running

theorem filtersUpdate_cases {orders : OrderMap} {filters after : AdPingPongBuffer (Option Filters)}
    (called : filtersUpdate world orders filters = some (ret, after)) :
    InitReady world filters.get ∧ (∃ descriptions, after.get =
        some { build (orders.toList.map Prod.snd) with descriptions }) ∨
      ¬ InitReady world filters.get ∧ after.get = filters.get := by
  rw [filtersUpdate] at called
  obtain ⟨⟨ret', back⟩, init, called⟩ := Option.bind_eq_some_iff.mp called
  obtain ⟨success, descriptions, rfl⟩ := filtersInit_cases init
  dsimp only at called
  split at called
  case isTrue failed =>
    cases called
    exact .inr ⟨fun ready => failed (success.mpr ready), by simp⟩
  case isFalse read =>
    cases called
    exact .inl ⟨success.mp (not_not.mp read), descriptions, by simp⟩

theorem filtersStage_cases (called : e.filtersStage world = some (ret, e')) :
    e'.data = e.data ∧
      (FiltersReady world e.filters.get ∧ Built e' ∨
        ¬ FiltersReady world e.filters.get ∧ e'.filters.get = e.filters.get) := by
  rw [AdRtbEngine.filtersStage] at called
  split at called
  case isTrue reinit =>
    cases called
    refine ⟨rfl, .inr ⟨fun ready => ?_, rfl⟩⟩
    rcases ready.config with same | ⟨apart, _⟩
    · exact reinit.1 same
    · exact apart reinit.2
  split at called
  case isTrue failed =>
    cases called
    refine ⟨rfl, .inr ⟨fun ready => ?_, rfl⟩⟩
    rcases ready.config with same | ⟨_, loaded⟩
    · exact failed.1 same
    · simp [loaded] at failed
  case isFalse apart loaded =>
    obtain ⟨⟨ret', filters⟩, updated, called⟩ := Option.bind_eq_some_iff.mp called
    cases called
    have config : world.changed = [] ∨ .config ∉ world.changed ∧ world.dealRank := by
      by_cases same : world.changed = []
      · exact .inl same
      · exact .inr ⟨fun inside => apart ⟨same, inside⟩, by simpa [same] using loaded⟩
    refine ⟨rfl, ?_⟩
    rcases filtersUpdate_cases updated with ⟨ready, built⟩ | ⟨missing, kept⟩
    · exact .inl ⟨⟨config, ready⟩, built⟩
    · exact .inr ⟨fun ready => missing ready.init, kept⟩

theorem placesStage_cases (called : e.placesStage world = some (ret, e')) :
    Stays e.data e'.data ∧
      ((PlacesAnswered world.redis e.data.data.get ∧ FiltersReady world e.filters.get) ∧ Built e' ∨
        ¬ (PlacesAnswered world.redis e.data.data.get ∧ FiltersReady world e.filters.get) ∧
          e'.filters.get = e.filters.get) := by
  have answered := dataUpdateAdvancedFilterResult_success_iff world.redis e.data
  have stays := dataUpdateAdvancedFilterResult_stays world.redis e.data
  rw [AdRtbEngine.placesStage] at called
  generalize e.data.dataUpdateAdvancedFilterResult world.redis = result at *
  obtain ⟨ret', data⟩ := result
  dsimp only at *
  split at called
  case isTrue failed =>
    cases called
    exact ⟨stays, .inr ⟨fun ready => failed (answered.mpr ready.1), rfl⟩⟩
  case isFalse success =>
    have places := answered.mp (not_not.mp success)
    obtain ⟨same, filters⟩ := filtersStage_cases called
    rw [same]
    refine ⟨stays, ?_⟩
    rcases filters with ⟨ready, built⟩ | ⟨missing, kept⟩
    · exact .inl ⟨⟨places, ready⟩, built⟩
    · exact .inr ⟨fun ready => missing ready.2, kept⟩

theorem PlacesAnswered.congr {β γ : Type} {orders : TreeMap UInt32 β} {others : TreeMap UInt32 γ}
    (same : ∀ id, id ∈ orders ↔ id ∈ others) (answered : PlacesAnswered redis orders) :
    PlacesAnswered redis others := by
  refine ⟨?_, answered.connect, fun id inside => answered.places id ((same id).mpr inside)⟩
  have present := answered.present
  rw [← Bool.not_eq_true, TreeMap.isEmpty_iff_forall_not_mem] at present ⊢
  simpa only [same] using present

theorem mem_read_iff {u : Updated} (clears : Clears redis s)
    (read : OrdersRead parse calendar redis) (called : s.dataUpdate parse calendar redis = some u)
    {id : UInt32} : id ∈ u.state.data.get ↔ id ∈ storedOrders parse calendar redis := by
  obtain ⟨loading, holds, done⟩ := dataUpdate_reads clears read
  obtain rfl : _ = u := Option.some.inj (done.symm.trans called)
  have keys := (mem_of_shows holds.shown).trans (TreeMap.mem_map (k := id))
  simpa [switched] using keys

/-- An update leaves the orders as the first stage does, and either comes to its end with new
filters in use, or leaves the filters in use. -/
theorem update_cases (stepped : update parse world e = some e') :
    ∃ u, e.data.dataUpdate parse world.calendar world.redis = some u ∧ Stays u.state e'.data ∧
      (Completes parse world e ∧ Built e' ∨
        ¬ Completes parse world e ∧ e'.filters.get = e.filters.get) := by
  obtain ⟨⟨ret, _⟩, called, rfl⟩ := Option.map_eq_some_iff.mp stepped
  rw [AdRtbEngine.adRtbEngineUpdate] at called
  obtain ⟨u, updated, called⟩ := Option.bind_eq_some_iff.mp called
  have success := dataUpdate_success_iff updated
  refine ⟨u, updated, ?_⟩
  dsimp only at called ⊢
  split at called
  case isTrue failed =>
    cases called
    refine ⟨.refl _, .inr ⟨fun completes => failed (success.mpr ?_), rfl⟩⟩
    rcases completes.data with ⟨unchanged, _⟩ | ⟨clears, renewed⟩
    · exact .inl unchanged
    · exact .inr ⟨clears, renewed.read, renewed.writes⟩
  case isFalse done =>
    have size := dataUpdate_size_iff updated (not_not.mp done)
    have success := success.mp (not_not.mp done)
    split at called
    case isTrue some =>
      have clears := size.mp some
      obtain ⟨⟨ret', data⟩, priced, called⟩ := Option.bind_eq_some_iff.mp called
      obtain ⟨answered, stays⟩ := dataUpdateAdvancedPriceData_cases priced
      have arrived : ¬ Unchanged world.redis e.data := fun unchanged =>
        unchanged.not_clears clears
      obtain ⟨_, read, writes⟩ := success.resolve_left arrived
      dsimp only at called
      split at called
      case isTrue failed =>
        cases called
        refine ⟨stays, .inr ⟨fun completes => failed (answered.mpr ?_), rfl⟩⟩
        exact (completes.data.resolve_left fun same => arrived same.1).2.prices
      case isFalse priced =>
        have prices := answered.mp (not_not.mp priced)
        obtain ⟨stays', filters⟩ := placesStage_cases called
        have keys : ∀ id, id ∈ data.data.get ↔ id ∈ storedOrders parse world.calendar world.redis :=
          fun id => stays.visible.mem.trans (mem_read_iff clears read updated)
        refine ⟨stays.trans stays', ?_⟩
        rcases filters with ⟨⟨places, ready⟩, built⟩ | ⟨missing, kept⟩
        · exact .inl ⟨⟨.inr ⟨clears, read, writes, prices, places.congr keys⟩, ready⟩, built⟩
        · refine .inr ⟨fun completes => missing ⟨?_, completes.filters⟩, kept⟩
          have renewed := (completes.data.resolve_left fun same => arrived same.1).2
          exact renewed.places.congr fun id => (keys id).symm
    case isFalse none =>
      have clears : ¬ Clears world.redis e.data := fun clears => none (size.mpr clears)
      have unchanged := success.resolve_right fun arrived => clears arrived.1
      obtain ⟨kept, _, _⟩ := dataUpdate_keeps clears updated
      obtain ⟨stays, filters⟩ := placesStage_cases called
      refine ⟨stays, ?_⟩
      rw [kept] at filters
      rcases filters with ⟨⟨places, ready⟩, built⟩ | ⟨missing, kept⟩
      · exact .inl ⟨⟨.inl ⟨unchanged, places⟩, ready⟩, built⟩
      · refine .inr ⟨fun completes => missing ⟨?_, completes.filters⟩, kept⟩
        exact (completes.data.resolve_right fun arrived => clears arrived.1).2

theorem placesStage_data (called : e.placesStage world = some (ret, e')) :
    e'.data = (e.data.dataUpdateAdvancedFilterResult world.redis).2 := by
  rw [AdRtbEngine.placesStage] at called
  dsimp only at called
  split at called
  · cases called
    rfl
  · exact (filtersStage_cases called).1

/-- How far an update of the data comes: not past the orders, on to the banned places without
new orders, or to the prices first. -/
theorem update_data (stepped : update parse world e = some e') :
    ∃ u, e.data.dataUpdate parse world.calendar world.redis = some u ∧
      (u.ret ≠ adSuccess ∧ e'.data = u.state ∨
        u.ret = adSuccess ∧ u.size = 0 ∧
          e'.data = (u.state.dataUpdateAdvancedFilterResult world.redis).2 ∨
        u.ret = adSuccess ∧ u.size ≠ 0 ∧ ∃ ret s,
          u.state.dataUpdateAdvancedPriceData parse world.redis = some (ret, s) ∧
            (ret ≠ adSuccess ∧ e'.data = s ∨
              ret = adSuccess ∧ e'.data = (s.dataUpdateAdvancedFilterResult world.redis).2)) := by
  obtain ⟨⟨ret, _⟩, called, rfl⟩ := Option.map_eq_some_iff.mp stepped
  rw [AdRtbEngine.adRtbEngineUpdate] at called
  obtain ⟨u, updated, called⟩ := Option.bind_eq_some_iff.mp called
  refine ⟨u, updated, ?_⟩
  dsimp only at called ⊢
  split at called
  case isTrue failed =>
    cases called
    exact .inl ⟨failed, rfl⟩
  case isFalse done =>
    right
    split at called
    case isTrue some =>
      right
      obtain ⟨⟨ret', data⟩, priced, called⟩ := Option.bind_eq_some_iff.mp called
      refine ⟨not_not.mp done, some, ret', data, priced, ?_⟩
      dsimp only at called
      split at called
      case isTrue failed =>
        cases called
        exact .inl ⟨failed, rfl⟩
      case isFalse answered =>
        exact .inr ⟨not_not.mp answered, placesStage_data called⟩
    case isFalse none =>
      exact .inl ⟨not_not.mp done, not_not.mp none, placesStage_data called⟩

/-- An update in which every file can be read and every task starts. -/
def sampleWorld (redis : Redis) (changed : List CheckedFile) : UpdateWorld where
  calendar := sampleCalendar
  redis := redis
  changed := changed
  dealRank := true
  tanx := some []
  realTime := true

end EngineUpdate
