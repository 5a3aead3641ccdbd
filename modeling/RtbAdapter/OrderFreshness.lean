import RtbAdapter.OrderLifetime

/-!
# Which orders bid after an update

When redis answers everything and every order parses, an update still stops early
at an empty set of orders, or at ban content that is not readable. The filters in
use then stay, with the orders of an earlier reading.
-/

namespace OrderFreshness

open ByteWords JsonValues PingPong PlanningUnit PlanningData PlanningUpdate RtbBase FilterTables
open FilterMark RtbFilters RtbEngine OrderPlaces EngineUpdate FilterReferences OrderLifetime
open StepRuns Std
open NetProtocol (adSuccess adFailure)

/-- Redis answers everything, every stored order parses, and no file has changed. -/
structure Undisturbed (parse : Bytes → Option JsonValue) (world : UpdateWorld) : Prop where
  answered : ∀ call, world.redis.ok call
  parses : ∀ text ∈ stored world.redis, ∃ unit, dataParse parse text = some (adSuccess, unit)
  config : world.changed = []

/-- What stands at the addresses that the filters in use point to: the orders, as long as they
are not deleted, and anything at all where they are. -/
def Reads (e : AdRtbEngine) (unit : Nat → AdPlanningUnit) : Prop :=
  ∀ (id : UInt32) placed,
    (e.data.data.get[id]? = some placed ∨ e.data.data.getBack[id]? = some placed) →
      placed.address ∈ e.references → unit placed.address = placed.unit

/-- The orders of the last reading: those that this update has read, when it has read any, and
else the visible ones. -/
def LastRead (world : UpdateWorld) (e e' : AdRtbEngine) (a : Nat) : Prop :=
  (Clears world.redis e.data → a ∈ e'.live ∧ e.data.nextAddress ≤ a) ∧
    (¬ Clears world.redis e.data → a ∈ addresses e'.data.data.get)

/-- No match returns an order from an older reading. -/
def Fresh (world : UpdateWorld) (e e' : AdRtbEngine) : Prop :=
  ∀ unit, Reads e' unit → ∀ filters, e'.filters.get = some filters → ∀ matchWorld r result,
    filtersMatch unit filters matchWorld r = some result →
      ∀ entry ∈ result, LastRead world e e' entry.1

/-- Every ban content that a stored order asks for is readable. -/
def BansReadable (parse : Bytes → Option JsonValue) (world : UpdateWorld) : Prop :=
  ∀ (id : UInt32) unit, (storedOrders parse world.calendar world.redis)[id]? = some unit →
    ∀ banId ∈ unit.order.banId,
      ∃ places, banPlaces parse (world.redis.ban (banKey banId)) = some (some places)

/-- There is an order to bid with: one that has just been read with all ban content readable, or
a visible one when the timestamp is the old one. -/
structure Rebuilds (parse : Bytes → Option JsonValue) (world : UpdateWorld) (e : AdRtbEngine) :
    Prop where
  renewed : Clears world.redis e.data → BansReadable parse world ∧
    (storedOrders parse world.calendar world.redis).isEmpty = false
  unchanged : ¬ Clears world.redis e.data → e.data.data.get.isEmpty = false

/-- The filters in use return nothing, whatever stands where an update that empties the back map
has deleted an order. -/
def Silent (world : UpdateWorld) (e : AdRtbEngine) : Prop :=
  ∀ unit : Nat → AdPlanningUnit,
    (∀ (id : UInt32) placed, (e.data.data.get[id]? = some placed ∨
        ¬ Clears world.redis e.data ∧ e.data.data.getBack[id]? = some placed) →
      placed.address ∈ e.references → unit placed.address = placed.unit) →
    ∀ filters, e.filters.get = some filters → ∀ matchWorld r result,
      filtersMatch unit filters matchWorld r = some result → result = []

variable {parse : Bytes → Option JsonValue} {calendar : Calendar} {world : UpdateWorld}
  {e e' : AdRtbEngine}

theorem optional_isMember {α : Type} {value : JsonValue} {key : String} {absent x : α}
    {read : JsonValue → Option α} (h : value.optional key absent read = some x) :
    value.isMember key = some false ∨
      value.isMember key = some true ∧ ∃ member, value.field key = some member ∧
        read member = some x := by
  obtain ⟨isMember, here, h⟩ := Option.bind_eq_some_iff.mp h
  cases isMember with
  | false => exact .inl here
  | true =>
    obtain ⟨member, found, h⟩ := Option.bind_eq_some_iff.mp h
    exact .inr ⟨here, member, found, h⟩

/-- The check of the days does not throw on an order that parses. -/
theorem dataJsonCheck_of_dataParse (calendar : Calendar) {text : Bytes} {unit : AdPlanningUnit}
    (parsed : dataParse parse text = some (adSuccess, unit)) :
    ∃ ret, dataJsonCheck parse calendar text = some ret := by
  rw [dataParse] at parsed
  rw [dataJsonCheck]
  by_cases empty : text = []
  · exact ⟨adSuccess, if_pos empty⟩
  rw [if_neg empty]
  cases read : parse text with
  | none => exact ⟨adSuccess, rfl⟩
  | some value =>
    rw [read] at parsed
    obtain ⟨_, _, parsed⟩ := Option.bind_eq_some_iff.mp parsed
    obtain ⟨_, _, parsed⟩ := Option.bind_eq_some_iff.mp parsed
    obtain ⟨time, range, _⟩ := Option.bind_eq_some_iff.mp parsed
    rcases optional_isMember range with absent | ⟨there, range, found, time⟩
    · exact ⟨adSuccess, by simp [absent]⟩
    · obtain ⟨startField, hStartField, time⟩ := Option.bind_eq_some_iff.mp time
      obtain ⟨start, hStart, time⟩ := Option.bind_eq_some_iff.mp time
      obtain ⟨stopField, hStopField, time⟩ := Option.bind_eq_some_iff.mp time
      obtain ⟨stop, hStop, _⟩ := Option.bind_eq_some_iff.mp time
      simp only [there, found, hStartField, hStart, hStopField, hStop, Option.bind_eq_bind,
        Option.bind_some, Option.pure_def, Bool.not_true]
      split
      · cases ‹false = true›
      split
      · split <;> exact ⟨_, rfl⟩
      · exact ⟨_, rfl⟩

theorem ordersRead_iff (calm : Undisturbed parse world) :
    OrdersRead parse world.calendar world.redis ↔ BansReadable parse world := by
  constructor
  · intro read id unit found banId asked
    obtain ⟨index, listed⟩ : ∃ index, (banId, index) ∈ unit.order.banId.zipIdx := by
      rw [← List.zipIdx_map_fst 0 unit.order.banId] at asked
      obtain ⟨⟨banId', index⟩, listed, rfl⟩ := List.mem_map.mp asked
      exact ⟨index, listed⟩
    exact (read.bans id unit found _ listed).2
  · intro readable
    constructor
    · rintro ⟨key, index⟩ listed
      have there : key ∈ world.redis.rawKeys := List.fst_mem_of_mem_zipIdx listed
      obtain ⟨unit, parsed⟩ := calm.parses _ (List.mem_map_of_mem there)
      refine ⟨calm.answered _, ?_⟩
      obtain ⟨ret, checked⟩ := dataJsonCheck_of_dataParse world.calendar parsed
      by_cases accepted : ret = adSuccess
      · subst accepted
        exact .inr ⟨checked, unit, parsed⟩
      · exact .inl ⟨ret, accepted, checked⟩
    · rintro id unit found ⟨banId, index⟩ listed
      exact ⟨calm.answered _, readable id unit found banId (List.fst_mem_of_mem_zipIdx listed)⟩

theorem unchanged_iff (calm : Undisturbed parse world) :
    Unchanged world.redis e.data ↔ ¬ Clears world.redis e.data := by
  refine ⟨Unchanged.not_clears, fun still => ⟨calm.answered _, calm.answered _, ?_⟩⟩
  by_contra changed
  exact still ⟨calm.answered _, calm.answered _, changed, calm.answered _⟩

theorem placesAnswered_iff {β : Type} {orders : TreeMap UInt32 β} (calm : Undisturbed parse world) :
    PlacesAnswered world.redis orders ↔ orders.isEmpty = false :=
  ⟨PlacesAnswered.present, fun present => ⟨present, calm.answered _, fun _ _ => calm.answered _⟩⟩

theorem systemWrites_iff (calm : Undisturbed parse world) :
    SystemWrites parse world.calendar world.redis ↔
      (storedOrders parse world.calendar world.redis).isEmpty = false :=
  ⟨SystemWrites.present, fun present => ⟨present, calm.answered _, fun _ _ => calm.answered _⟩⟩

/-- What an undisturbed update needs to come to its end. -/
theorem completes_iff (calm : Undisturbed parse world) :
    Completes parse world e ↔ Rebuilds parse world e ∧ (e.filters.get.isNone → world.realTime) := by
  constructor
  · intro completes
    refine ⟨⟨fun clears => ?_, fun still => ?_⟩, completes.filters.init.realTime⟩
    · have renewed := (completes.data.resolve_left fun same => same.1.not_clears clears).2
      exact ⟨(ordersRead_iff calm).mp renewed.read, renewed.places.present⟩
    · exact (completes.data.resolve_right fun renewed => still renewed.1).2.present
  · rintro ⟨rebuilds, realTime⟩
    refine ⟨?_, .inl calm.config, fun changed => ?_, realTime⟩
    · by_cases clears : Clears world.redis e.data
      · obtain ⟨bans, present⟩ := rebuilds.renewed clears
        have prices : PricesAnswered world.redis :=
          ⟨calm.answered _, calm.answered _, fun _ _ => calm.answered _⟩
        exact .inr ⟨clears, (ordersRead_iff calm).mpr bans, (systemWrites_iff calm).mpr present,
          prices, (placesAnswered_iff calm).mpr present⟩
      · exact .inl ⟨(unchanged_iff calm).mpr clears,
          (placesAnswered_iff calm).mpr (rebuilds.unchanged clears)⟩
    · simp [calm.config] at changed

/-- New filters return orders of the last reading. -/
theorem fresh_of_built (rebuilds : Rebuilds parse world e)
    (calm : Undisturbed parse world) (stepped : update parse world e = some e')
    (built : Built e') : Fresh world e e' := by
  obtain ⟨u, updated, stays, _⟩ := update_cases stepped
  intro unit _ filters used matchWorld r result matched entry inside
  have referenced : entry.1 ∈ e'.references := by
    rw [AdRtbEngine.references, used]
    exact filtersMatch_references matched entry inside
  have visible := references_built built referenced
  refine ⟨fun clears => ⟨List.mem_append_left _ visible, ?_⟩, fun _ => visible⟩
  rcases dataUpdate_cases updated with ⟨still, _⟩ | ⟨_, loading, _, placed, states⟩
  · exact absurd clears still
  · have read := (ordersRead_iff calm).mpr (rebuilds.renewed clears).1
    have switched := (states.resolve_right fun broken => broken.1 read).2
    have new := stays.visible.mem_addresses.mp visible
    rw [switched] at new
    exact (placed _ (by simpa [PlanningUpdate.switched] using new)).1

/-- An undisturbed update that does not come to its end leaves the visible orders where they
are, in one of the two maps, and the other orders are new. -/
theorem kept_orders (calm : Undisturbed parse world) (stops : ¬ Rebuilds parse world e)
    (stepped : update parse world e = some e') :
    (¬ Clears world.redis e.data ∧ e.data.data.get.isEmpty ∧ e'.data = e.data) ∨
      (Clears world.redis e.data ∧ ∃ loading : Loading,
        PlacedIn loading.map e.data.nextAddress loading.nextAddress ∧
        (e'.data = switched world.redis e.data loading ∨ e'.data = broken e.data loading)) := by
  obtain ⟨u, updated, stages⟩ := update_data stepped
  have success := dataUpdate_success_iff updated
  rcases dataUpdate_cases updated with ⟨still, same⟩ | ⟨clears, loading, _, placed, states⟩
  · left
    have empty : e.data.data.get.isEmpty := by
      by_contra filled
      exact stops ⟨fun clears => absurd clears still, fun _ => by simpa using filled⟩
    refine ⟨still, empty, ?_⟩
    have done := success.mpr (.inl ((unchanged_iff calm).mpr still))
    rcases stages with ⟨failed, _⟩ | ⟨_, _, places⟩ | ⟨_, size, _⟩
    · exact absurd done failed
    · rw [places, same, AdPlanningData.dataUpdateAdvancedFilterResult, if_pos empty]
    · exact absurd ((dataUpdate_size_iff updated done).mp size) still
  · right
    have failed : u.ret ≠ adSuccess := by
      intro done
      obtain ⟨_, read, writes⟩ := (success.mp done).resolve_left
        fun unchanged => unchanged.not_clears clears
      exact stops ⟨fun _ => ⟨(ordersRead_iff calm).mp read, writes.present⟩,
        fun still => absurd clears still⟩
    have same : e'.data = u.state := by
      rcases stages with ⟨_, same⟩ | ⟨done, _⟩ | ⟨done, _⟩
      · exact same
      · exact absurd done failed
      · exact absurd done failed
    refine ⟨clears, loading, placed, ?_⟩
    rw [same]
    exact states.imp And.right And.right

/-- When the filters in use stay, a match returns orders of an older reading, or nothing. -/
theorem fresh_iff_silent (aged : Aged e) (calm : Undisturbed parse world)
    (stops : ¬ Rebuilds parse world e) (stepped : update parse world e = some e') :
    Fresh world e e' ↔ Silent world e := by
  obtain ⟨u, updated, _, filters⟩ := update_cases stepped
  have kept : e'.filters.get = e.filters.get :=
    (filters.resolve_left fun built => stops ((completes_iff calm).mp built.1).1).2
  have references := references_kept kept
  have survivors : ∀ unit, Reads e' unit ↔ ∀ (id : UInt32) placed,
      (e.data.data.get[id]? = some placed ∨
        ¬ Clears world.redis e.data ∧ e.data.data.getBack[id]? = some placed) →
      placed.address ∈ e.references → unit placed.address = placed.unit := by
    intro unit
    rw [Reads, references]
    rcases kept_orders calm stops stepped with ⟨still, _, same⟩ | ⟨clears, loading, placed, states⟩
    · simp [same, still]
    · have halves : ∀ (id : UInt32) (p : Allocated),
          (e'.data.data.get[id]? = some p ∨ e'.data.data.getBack[id]? = some p) ↔
            (loading.map[id]? = some p ∨ e.data.data.get[id]? = some p) := by
        intro id p
        rcases states with same | same
        · simp [same, switched]
        · simp [same, broken, or_comm]
      simp only [halves, clears, not_true_eq_false, false_and, or_false]
      constructor
      · exact fun reads id p visible => reads id p (.inr visible)
      · rintro reads id p (new | visible) referenced
        · -- a new order stands where no reference points to yet
          have above := (placed p.address (mem_addresses_of_get new)).1
          exact absurd (aged.references _ referenced) (Nat.not_lt.mpr above)
        · exact reads id p visible referenced
  have old : ∀ a ∈ e.references, ¬ LastRead world e e' a := by
    intro a referenced last
    rcases kept_orders calm stops stepped with ⟨still, empty, same⟩ | ⟨clears, _⟩
    · have visible := last.2 still
      rw [same, mem_addresses] at visible
      obtain ⟨id, there⟩ := visible
      rw [TreeMap.getElem?_of_isEmpty empty] at there
      cases there
    · exact absurd (aged.references a referenced) (Nat.not_lt.mpr (last.1 clears).2)
  constructor
  · intro fresh unit reads filters used matchWorld r result matched
    rw [List.eq_nil_iff_forall_not_mem]
    intro entry inside
    have last := fresh unit ((survivors unit).mpr reads) filters (kept.trans used) matchWorld r
      result matched entry inside
    have referenced : entry.1 ∈ e.references := by
      rw [AdRtbEngine.references, used]
      exact filtersMatch_references matched entry inside
    exact old entry.1 referenced last
  · intro silent unit reads filters used matchWorld r result matched entry inside
    have empty := silent unit ((survivors unit).mp reads) filters (kept ▸ used) matchWorld r result
      matched
    simp [empty] at inside

/-- After an undisturbed update in any run, every order that can bid is of the last reading
exactly when there was an order to bid with, or the filters in use were silent before. -/
theorem order_freshness_iff (parse : Bytes → Option JsonValue) (worlds : List UpdateWorld)
    (world : UpdateWorld) (e e' : AdRtbEngine)
    (reached : e ∈ states (update parse) .fresh worlds) (calm : Undisturbed parse world)
    (stepped : update parse world e = some e') :
    Fresh world e e' ↔ Rebuilds parse world e ∨ Silent world e := by
  have aged : Aged e :=
    states_keep (fun _ _ _ aged stepped => aged_update aged stepped) aged_fresh worlds e reached
  by_cases rebuilds : Rebuilds parse world e
  · refine iff_of_true ?_ (.inl rebuilds)
    obtain ⟨_, _, _, ⟨_, built⟩ | ⟨stopped, kept⟩⟩ := update_cases stepped
    · exact fresh_of_built rebuilds calm stepped built
    · -- without filters in use nothing is returned
      intro _ _ filters used
      refine absurd ((completes_iff calm).mpr ⟨rebuilds, fun none => ?_⟩) stopped
      rw [kept] at used
      simp [used] at none
  · rw [fresh_iff_silent aged calm rebuilds stepped]
    exact ⟨.inr, fun either => either.resolve_left rebuilds⟩

/-- The heap, as far as the two maps know it. -/
def heap (e : AdRtbEngine) (a : Nat) : AdPlanningUnit :=
  (((e.data.data.get.toList ++ e.data.data.getBack.toList).find? fun entry =>
    entry.2.address = a).map fun entry => entry.2.unit).getD {}

theorem reads_heap (apart : e.live.Nodup) : Reads e (heap e) := by
  intro id placed inside _
  have listed : (id, placed) ∈ e.data.data.get.toList ++ e.data.data.getBack.toList := by
    simpa [TreeMap.mem_toList_iff_getElem?_eq_some] using inside
  have live : e.live = (e.data.data.get.toList ++ e.data.data.getBack.toList).map
      fun entry => entry.2.address := by
    rw [AdRtbEngine.live, addresses, addresses, List.map_append]
  rw [heap]
  generalize e.data.data.get.toList ++ e.data.data.getBack.toList = entries at *
  rw [live] at apart
  cases found : entries.find? fun entry => entry.2.address = placed.address with
  | none =>
    have missing := List.find?_eq_none.mp found _ listed
    simp at missing
  | some other =>
    have same := List.find?_some found
    have there := List.mem_of_find?_eq_some found
    rw [List.inj_on_of_nodup_map apart there listed (by simpa using same)]
    rfl

/-- A visit to a page with a place for the sample order, in an hour in which it is pushed. -/
def sampleRequest : AdRtbRequest :=
  { AdRtbRequest.clear ⟨0, 0⟩ with
    adx := 1, text := fun text => if text = .size then ascii "300x250" else [] }

def sampleMatchWorld : MatchWorld where
  clock := ⟨1, 10⟩
  second := 0
  now := ⟨0, 0⟩
  infos _ := none
  user _ := none

/-- Redis with the sample order or without it, and with nothing else; no file changes. -/
def orderWorld (timestamp : Int) (rawKeys : List Bytes) : UpdateWorld :=
  sampleWorld (sampleRedis timestamp rawKeys []) []

theorem undisturbed_orderWorld (timestamp : Int) (rawKeys : List Bytes) :
    Undisturbed sampleParse (orderWorld timestamp rawKeys) := by
  refine ⟨fun call => by simp [orderWorld, sampleWorld, sampleRedis], fun text _ => ?_, rfl⟩
  have complete : (dataParse sampleParse text).map Prod.fst = some adSuccess := rfl
  obtain ⟨⟨ret, unit⟩, parsed, same⟩ := Option.map_eq_some_iff.mp complete
  exact ⟨unit, by rw [parsed, ← same]⟩

/-- The engine once the sample order has arrived. -/
def oneOrder : AdRtbEngine :=
  (update sampleParse (sampleWorld (sampleRedis 1 [ascii "7"] []) [.tanxContent]) .fresh).get
    (by decide)

/-- The engine after the order was withdrawn. -/
def withdrawn : AdRtbEngine := (update sampleParse (orderWorld 2 []) oneOrder).get (by decide)

theorem oneOrder_reached : oneOrder ∈ states (update sampleParse) .fresh
    [sampleWorld (sampleRedis 1 [ascii "7"] []) [.tanxContent]] :=
  states_cons.mpr (.inr ⟨oneOrder, (Option.some_get _).symm, first_mem_states _ _⟩)

/-- Updating again under the same timestamp returns the same order. -/
theorem same_timestamp_fresh :
    Fresh (orderWorld 1 [ascii "7"]) oneOrder
      ((update sampleParse (orderWorld 1 [ascii "7"]) oneOrder).get (by decide)) := by
  refine (order_freshness_iff sampleParse _ _ _ _ oneOrder_reached
    (undisturbed_orderWorld 1 [ascii "7"]) (Option.some_get _).symm).mpr (.inl ⟨?_, ?_⟩)
  · exact fun clears => absurd (by decide +kernel) clears.changed
  · exact fun _ => by decide +kernel

/-- The only order is withdrawn from redis, and still bids. -/
theorem last_order_keeps_bidding :
    ¬ ∀ (worlds : List UpdateWorld) (world : UpdateWorld) (e e' : AdRtbEngine),
      e ∈ states (update sampleParse) .fresh worlds → Undisturbed sampleParse world →
        update sampleParse world e = some e' → Fresh world e e' := by
  intro claim
  have fresh := claim _ _ oneOrder withdrawn oneOrder_reached (undisturbed_orderWorld 2 [])
    (Option.some_get _).symm
  have bids : (withdrawn.filters.get.bind fun filters =>
      (filtersMatch (heap withdrawn) filters sampleMatchWorld sampleRequest).map fun result =>
        result.map Prod.fst) = some [0] := by decide +kernel
  obtain ⟨filters, used, bids⟩ := Option.bind_eq_some_iff.mp bids
  obtain ⟨result, matched, bids⟩ := Option.map_eq_some_iff.mp bids
  obtain ⟨entry, rfl, first⟩ := List.map_eq_singleton_iff.mp bids
  have last := fresh (heap withdrawn) (reads_heap (by decide)) filters used sampleMatchWorld
    sampleRequest [entry] matched entry (List.mem_singleton.mpr rfl)
  have clears : Clears (orderWorld 2 []).redis oneOrder.data :=
    ⟨by decide +kernel, by decide +kernel, by decide +kernel, by decide +kernel⟩
  have new : oneOrder.data.nextAddress ≤ entry.1 := (last.1 clears).2
  rw [first] at new
  exact absurd new (by decide)

end OrderFreshness
