import RtbAdapter.EngineUpdate
import RtbAdapter.StepRuns

/-!
# Prices and the orders that point to them

An order gets its pointer from the same call that makes the prices visible, and new
orders have none, so that no pointer is ever left behind. The visible prices
themselves are those of the last complete reading only while every reading that an
update comes to is complete.
-/

namespace PriceReferences

open ByteWords JsonValues PingPong PlanningUnit PlanningData PlanningUpdate RtbEngine
open OrderPlaces EngineUpdate StepRuns Std
open NetProtocol (adSuccess adFailure)

/-- The price pointer of an order is null or points to its own entry in a price map. -/
def PointsInto (prices : PriceMap) (unit : AdPlanningUnit) : Prop :=
  ∀ pointer, unit.advancedPrice = some pointer →
    pointer = ⟨prices.generation, unit.order.executeId⟩ ∧ unit.order.executeId ∈ prices.entries

/-- A property of every order of a map. -/
def Every (P : AdPlanningUnit → Prop) (map : OrderMap) : Prop :=
  ∀ (id : UInt32) placed, map[id]? = some placed → P placed.unit

variable {parse : Bytes → Option JsonValue} {calendar : Calendar} {redis : Redis}
  {world : UpdateWorld} {s s' : AdPlanningData} {e e' : AdRtbEngine}

theorem Every.insert {P : AdPlanningUnit → Prop} {map : OrderMap} (every : Every P map)
    {id : UInt32} {placed : Allocated} (here : P placed.unit) : Every P (map.insert id placed) := by
  intro other found there
  rw [TreeMap.getElem?_insert] at there
  split at there
  · cases there
    exact here
  · exact every other found there

theorem Every.loadPids {P : AdPlanningUnit → Prop}
    (keeps : ∀ placed pids, P placed.unit → P (Allocated.withPids placed pids).unit)
    {entries : List (UInt32 × Allocated)} {map : OrderMap} (listed : ∀ e ∈ entries, P e.2.unit)
    (every : Every P map) : Every P (loadPids redis entries map).2 := by
  induction entries generalizing map with
  | nil => exact every
  | cons entry entries ih =>
    obtain ⟨here, listed⟩ := List.forall_mem_cons.mp listed
    rw [PlanningData.loadPids]
    split
    · exact ih listed (every.insert (keeps entry.2 _ here))
    · exact every

theorem filterResult_prices :
    (s.dataUpdateAdvancedFilterResult redis).2.advancePrice = s.advancePrice := by
  rw [AdPlanningData.dataUpdateAdvancedFilterResult]
  split
  · rfl
  split <;> rfl

/-- The stage of the banned places keeps the pointers. -/
theorem filterResult_points {prices : PriceMap} (points : Every (PointsInto prices) s.data.get) :
    Every (PointsInto prices) (s.dataUpdateAdvancedFilterResult redis).2.data.get := by
  rw [AdPlanningData.dataUpdateAdvancedFilterResult]
  split
  · exact points
  split
  · exact points
  · have loaded : Every (PointsInto prices) (loadPids redis s.data.get.toList s.data.get).2 := by
      refine Every.loadPids (fun _ _ here => here) ?_ points
      rintro ⟨id, placed⟩ inside
      exact points id placed (TreeMap.mem_toList_iff_getElem?_eq_some.mp inside)
    simpa using loaded

/-- Orders that have just been read have no pointer. -/
theorem switched_unpriced {u : Updated} (clears : Clears redis s)
    (read : OrdersRead parse calendar redis)
    (called : s.dataUpdate parse calendar redis = some u) :
    Every (fun unit => unit.advancedPrice = none) u.state.data.get := by
  obtain ⟨loading, holds, done⟩ := dataUpdate_reads clears read
  obtain rfl : _ = u := Option.some.inj (done.symm.trans called)
  intro id placed found
  have shown := holds.shown id
  simp only [switched, AdPingPongBuffer.get_switch, AdPingPongBuffer.getBack_setBack] at found
  rw [found, TreeMap.getElem?_map] at shown
  obtain ⟨unit, there, same⟩ := Option.map_eq_some_iff.mp shown.symm
  have blank : unit.advancedPrice = none :=
    acceptedOrders_all (fun _ _ _ => dataParse_advancedPrice) (stored redis) id unit there
  rw [← same]
  exact blank

/-- After the orders are read, the prices are the old ones, and the orders point to them. -/
theorem dataUpdate_points {u : Updated}
    (points : Every (PointsInto s.advancePrice.get) s.data.get)
    (called : s.dataUpdate parse calendar redis = some u) :
    u.state.advancePrice = s.advancePrice ∧
      Every (PointsInto s.advancePrice.get) u.state.data.get := by
  rcases dataUpdate_cases called with ⟨_, same⟩ | ⟨clears, loading, _, _, states⟩
  · rw [same]
    exact ⟨rfl, points⟩
  · rcases states with ⟨read, same⟩ | ⟨_, same⟩
    · refine ⟨by rw [same]; rfl, fun id placed found pointer here => ?_⟩
      rw [switched_unpriced clears read called id placed found] at here
      cases here
    · rw [same]
      exact ⟨rfl, by simpa [broken] using points⟩

/-- The stage of the prices: what it has read is visible, and a complete reading has set the
pointers. -/
theorem dataUpdateAdvancedPriceData_spec {ret : Int}
    (called : s.dataUpdateAdvancedPriceData parse redis = some (ret, s')) :
    ∃ entries, readPrices parse redis = some (ret, entries) ∧
      s'.advancePrice.get.entries = entries ∧
      (ret = adSuccess → Every (PointsInto s'.advancePrice.get) s'.data.get) ∧
      (ret ≠ adSuccess → s'.data = s.data) := by
  rw [AdPlanningData.dataUpdateAdvancedPriceData] at called
  obtain ⟨⟨ret', entries⟩, read, called⟩ := Option.bind_eq_some_iff.mp called
  dsimp only at called
  split at called
  case isTrue success =>
    cases called
    refine ⟨entries, read, by simp, fun _ => ?_, fun failed => absurd success failed⟩
    simp only [AdPingPongBuffer.get_switch, AdPingPongBuffer.getBack_setBack,
      AdPingPongBuffer.get_set]
    intro id placed found pointer here
    rw [TreeMap.getElem?_map] at found
    obtain ⟨old, _, rfl⟩ := Option.map_eq_some_iff.mp found
    simp only [Allocated.withPrice, PriceMap.find] at here ⊢
    split at here
    case isTrue inside =>
      cases here
      exact ⟨rfl, inside⟩
    case isFalse => cases here
  case isFalse failed =>
    cases called
    exact ⟨entries, read, by simp, fun success => absurd success failed, fun _ => rfl⟩

section Runs

variable (parse)

/-- The table of prices that an update reads to its end, if it comes to the prices at all. -/
def completeRead (world : UpdateWorld) (e : AdRtbEngine) : Option PriceTable :=
  match e.data.dataUpdate parse world.calendar world.redis with
  | some u =>
    if u.ret = adSuccess ∧ u.size ≠ 0 then
      match readPrices parse world.redis with
      | some (ret, table) => if ret = adSuccess then some table else none
      | none => none
    else none
  | none => none

/-- An update, together with the table of the last complete reading. -/
def priceUpdate (world : UpdateWorld) (state : AdRtbEngine × PriceTable) :
    Option (AdRtbEngine × PriceTable) :=
  (update parse world state.1).map fun e => (e, (completeRead parse world state.1).getD state.2)

/-- When an update has read new orders and written them back, no call for the prices fails. -/
def PricesComplete (world : UpdateWorld) (state : AdRtbEngine × PriceTable) : Prop :=
  Clears world.redis state.1.data → OrdersRead parse world.calendar world.redis →
    SystemWrites parse world.calendar world.redis → PricesAnswered world.redis

end Runs

/-- The visible orders point into the visible prices, each to its own entry. -/
def PointersSound (e : AdRtbEngine) : Prop :=
  Every (PointsInto e.data.advancePrice.get) e.data.data.get

/-- What the prices should be: pointed to soundly, and those of the last complete reading. -/
structure PricesSound (state : AdRtbEngine × PriceTable) : Prop where
  pointers : PointersSound state.1
  entries : state.1.data.advancePrice.get.entries = state.2

theorem filterResult_sound {s : AdPlanningData}
    (sound : Every (PointsInto s.advancePrice.get) s.data.get) :
    Every (PointsInto (s.dataUpdateAdvancedFilterResult redis).2.advancePrice.get)
      (s.dataUpdateAdvancedFilterResult redis).2.data.get := by
  rw [filterResult_prices]
  exact filterResult_points sound

theorem pointersSound_update (sound : PointersSound e) (stepped : update parse world e = some e') :
    PointersSound e' := by
  obtain ⟨u, updated, stages⟩ := update_data stepped
  obtain ⟨prices, points⟩ := dataUpdate_points sound updated
  rw [← prices] at points
  rw [PointersSound]
  rcases stages with ⟨_, same⟩ | ⟨_, _, same⟩ | ⟨success, size, ret, s, priced, stages⟩
  · rw [same]
    exact points
  · rw [same]
    exact filterResult_sound points
  · obtain ⟨entries, _, _, set, kept⟩ := dataUpdateAdvancedPriceData_spec priced
    rcases stages with ⟨failed, same⟩ | ⟨answered, same⟩
    · -- the orders are new here, so that none of them points into the prices that went away
      have clears := (dataUpdate_size_iff updated success).mp size
      have read := ((dataUpdate_success_iff updated).mp success).resolve_left
        fun unchanged => unchanged.not_clears clears
      rw [same, kept failed]
      intro id placed found pointer here
      rw [switched_unpriced clears read.2.1 updated id placed found] at here
      cases here
    · rw [same]
      exact filterResult_sound (set answered)

/-- Whatever fails, no order ever points to a price that is gone or to that of another order. -/
theorem pointers_sound (parse : Bytes → Option JsonValue) (worlds : List UpdateWorld) :
    ∀ e ∈ states (update parse) .fresh worlds, PointersSound e :=
  states_keep (fun _ _ _ sound stepped => pointersSound_update sound stepped)
    (fun id placed found => by
      simp [AdRtbEngine.fresh, AdPlanningData.fresh, AdPingPongBuffer.get] at found)
    worlds

theorem pricesSound_update {state after : AdRtbEngine × PriceTable} (sound : PricesSound state)
    (complete : PricesComplete parse world state)
    (stepped : priceUpdate parse world state = some after) : PricesSound after := by
  obtain ⟨e', updated, rfl⟩ := Option.map_eq_some_iff.mp stepped
  refine ⟨pointersSound_update sound.pointers updated, ?_⟩
  obtain ⟨u, updated, stages⟩ := update_data updated
  obtain ⟨prices, _⟩ := dataUpdate_points sound.pointers updated
  rcases stages with ⟨failed, same⟩ | ⟨_, size, same⟩ | ⟨success, size, ret, s, priced, stages⟩
  · simp [completeRead, updated, failed, same, prices, sound.entries]
  · simp [completeRead, updated, size, same, filterResult_prices, prices, sound.entries]
  · obtain ⟨entries, read, shown, _, _⟩ := dataUpdateAdvancedPriceData_spec priced
    have clears := (dataUpdate_size_iff updated success).mp size
    have orders := ((dataUpdate_success_iff updated).mp success).resolve_left
      fun unchanged => unchanged.not_clears clears
    have answered : ret = adSuccess :=
      (readPrices_success_iff read).mpr (complete clears orders.2.1 orders.2.2)
    have same := (stages.resolve_left fun failed => failed.1 answered).2
    simp [completeRead, updated, success, size, read, answered, same, filterResult_prices, shown]

/-- Along a run in which every reading of prices is complete, the visible prices are those of
the last reading. -/
theorem prices_sound (parse : Bytes → Option JsonValue) (worlds : List UpdateWorld)
    (complete : Throughout (priceUpdate parse) (PricesComplete parse) (.fresh, ∅) worlds) :
    ∀ state ∈ states (priceUpdate parse) (.fresh, ∅) worlds, PricesSound state :=
  states_keep_throughout (fun _ _ _ sound met stepped => pricesSound_update sound met stepped)
    ⟨pointers_sound parse [] _ (first_mem_states _ _), rfl⟩ complete

/-- One price for the sample order. -/
def samplePrices : JsonValue :=
  let field (key : String) (value : JsonValue) : Bytes × JsonValue := (ascii key, value)
  .array [.object [field "adx_id" (.string (ascii "1")), field "type" (.string (ascii "1")),
    field "epv" (.int 1), field "eprice" (.int 5), field "spid" (.string (ascii "p1"))]]

def pricedParse (text : Bytes) : Option JsonValue :=
  if text = ascii "[]" then some samplePrices else some sampleOrder

/-- An update with the sample order and its price. -/
def pricedWorld (timestamp : Int) (fails : List RedisCall) (changed : List CheckedFile) :
    UpdateWorld :=
  sampleWorld { sampleRedis timestamp [ascii "7"] fails with
    seniorKeys := [ascii "7"], senior := fun _ => ascii "[]" } changed

/-- The prices are read, and the next reading fails at its list of keys. -/
theorem failed_keys_empty_prices :
    ¬ ∀ state ∈ states (priceUpdate pricedParse) (.fresh, ∅)
        [pricedWorld 1 [] [.tanxContent], pricedWorld 2 [.seniorKeys] []],
      PricesSound state := by
  have lost : ∃ state ∈ states (priceUpdate pricedParse) (.fresh, ∅)
      [pricedWorld 1 [] [.tanxContent], pricedWorld 2 [.seniorKeys] []],
        state.1.data.advancePrice.get.entries.size ≠ state.2.size := by decide +kernel
  intro sound
  obtain ⟨state, reached, sizes⟩ := lost
  exact sizes (congrArg TreeMap.size (sound state reached).entries)

/-- The same run without the failure. -/
theorem answered_prices_sound :
    ∃ state ∈ states (priceUpdate pricedParse) (.fresh, ∅)
        [pricedWorld 1 [] [.tanxContent], pricedWorld 2 [] []],
      state.2.size = 1 ∧ PricesSound state := by
  have read : ∃ state ∈ states (priceUpdate pricedParse) (.fresh, ∅)
      [pricedWorld 1 [] [.tanxContent], pricedWorld 2 [] []], state.2.size = 1 := by decide +kernel
  have answered : ∀ timestamp changed,
      PricesAnswered (pricedWorld timestamp [] changed).redis := fun _ _ =>
    ⟨rfl, rfl, fun _ _ => rfl⟩
  obtain ⟨state, reached, one⟩ := read
  refine ⟨state, reached, one, prices_sound pricedParse _ ?_ state reached⟩
  exact fun _ _ => ⟨fun _ _ _ => answered 1 _, fun _ _ => ⟨fun _ _ _ => answered 2 _, trivial⟩⟩

end PriceReferences
