import RtbAdapter.FilterResults

/-!
# Filters over a set of orders

Orders that are loaded together have different addresses and different execution
ids. The tables of the filters built over them hold each order under its own keys.
-/

namespace LoadedOrders

open ByteWords CText PlanningUnit RtbBase FilterTables FilterMark RtbFilters FilterReferences
open FilterResults

/-- The orders of one map. -/
structure Loaded where
  orders : List Allocated
  addresses : (orders.map Allocated.address).Nodup
  execIds : (orders.map fun placed => placed.unit.order.executeId).Nodup

/-- What stands at an address, as far as some orders know. -/
def orderAt (orders : List Allocated) (a : Nat) : AdPlanningUnit :=
  ((orders.find? fun placed => placed.address = a).map Allocated.unit).getD {}

theorem orderAt_address {orders : List Allocated} (apart : (orders.map Allocated.address).Nodup)
    {placed : Allocated} (inside : placed ∈ orders) :
    orderAt orders placed.address = placed.unit := by
  rw [orderAt]
  cases found : orders.find? fun other => other.address = placed.address with
  | none =>
    have missing := List.find?_eq_none.mp found _ inside
    simp at missing
  | some other =>
    have same := List.find?_some found
    rw [List.inj_on_of_nodup_map apart (List.mem_of_find?_eq_some found) inside
      (by simpa using same)]
    rfl

theorem Loaded.apart (loaded : Loaded) :
    Apart (orderAt loaded.orders) (loaded.orders.map Allocated.address) := by
  rintro _ first _ second same
  obtain ⟨placed, inside, rfl⟩ := List.mem_map.mp first
  obtain ⟨other, inside', rfl⟩ := List.mem_map.mp second
  rw [execId, execId, orderAt_address loaded.addresses inside,
    orderAt_address loaded.addresses inside'] at same
  exact congrArg Allocated.address (List.inj_on_of_nodup_map loaded.execIds inside inside' same)

/-- The table of a filter with the given keys. -/
def tableOf (keys : AdPlanningUnit → List Bytes) (orders : List Allocated) : AdMap Nat :=
  orders.flatMap fun placed => (keys placed.unit).map fun key => (key, placed.address)

theorem build_eq (orders : List Allocated) :
    build orders =
      { time := tableOf timeKeys orders
        adExchange := tableOf adExchangeKeys orders
        pid := tableOf pidKeys orders
        area := tableOf areaKeys orders
        size := tableOf sizeKeys orders
        userAgent := tableOf userAgentKeys orders
        mobileOperator := tableOf mobileOperatorKeys orders
        mobileDevice := tableOf mobileDeviceKeys orders
        mobileConnect := tableOf mobileConnectKeys orders
        ban := tableOf banKeys orders
        landingPage := tableOf landingPageKeys orders
        tanx := tableOf tanxKeys orders
        mark := orders.foldl AdFilterMark.addData {} } := by
  have step : ∀ (orders : List Allocated) (filters : Filters),
      orders.foldl Filters.addData filters =
        { filters with
          time := filters.time ++ tableOf timeKeys orders
          adExchange := filters.adExchange ++ tableOf adExchangeKeys orders
          pid := filters.pid ++ tableOf pidKeys orders
          area := filters.area ++ tableOf areaKeys orders
          size := filters.size ++ tableOf sizeKeys orders
          userAgent := filters.userAgent ++ tableOf userAgentKeys orders
          mobileOperator := filters.mobileOperator ++ tableOf mobileOperatorKeys orders
          mobileDevice := filters.mobileDevice ++ tableOf mobileDeviceKeys orders
          mobileConnect := filters.mobileConnect ++ tableOf mobileConnectKeys orders
          ban := filters.ban ++ tableOf banKeys orders
          landingPage := filters.landingPage ++ tableOf landingPageKeys orders
          tanx := filters.tanx ++ tableOf tanxKeys orders
          mark := orders.foldl AdFilterMark.addData filters.mark } := by
    intro orders
    induction orders with
    | nil => simp [tableOf]
    | cons placed orders ih =>
      intro filters
      rw [List.foldl_cons, ih]
      simp only [Filters.addData, FilterTables.addData, tableOf, List.flatMap_cons,
        List.append_assoc, List.foldl_cons]
  rw [build]
  simpa using step orders {}

theorem mem_find_tableOf {keys : AdPlanningUnit → List Bytes} {orders : List Allocated}
    {key : Bytes} {a : Nat} :
    a ∈ (tableOf keys orders).find key ↔
      ∃ placed ∈ orders, key ∈ keys placed.unit ∧ placed.address = a := by
  simp only [mem_find, tableOf, List.mem_flatMap, List.mem_map, Prod.mk.injEq]
  constructor
  · rintro ⟨placed, inside, k, listed, rfl, rfl⟩
    exact ⟨placed, inside, listed, rfl⟩
  · rintro ⟨placed, inside, listed, rfl⟩
    exact ⟨placed, inside, key, listed, rfl, rfl⟩

/-- The orders that a request gets, by address. -/
def candidates (loaded : Loaded) (descriptions : AdMap AdTanxDescription) (world : MatchWorld)
    (r : AdRtbRequest) : Option (List Nat) :=
  (filtersMatch (orderAt loaded.orders) { build loaded.orders with descriptions } world r).map
    fun result => result.map Prod.fst

end LoadedOrders
