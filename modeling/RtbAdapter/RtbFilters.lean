import RtbAdapter.FilterMark

/-!
# The chain of filters

Sixteen filters stand in a fixed order. They are built together over a list of
orders and a request passes through all of them, until no order is left.
-/

namespace RtbFilters

open ByteWords PlanningUnit RtbBase FilterTables FilterMark Std

/-- The filters that keep something of the orders. The parameter filter keeps nothing, the
frequency filter returns at once, and the table of the real time filter is written by its
own task. -/
structure Filters where
  time : AdMap Nat := []
  adExchange : AdMap Nat := []
  pid : AdMap Nat := []
  area : AdMap Nat := []
  size : AdMap Nat := []
  userAgent : AdMap Nat := []
  mobileOperator : AdMap Nat := []
  mobileDevice : AdMap Nat := []
  mobileConnect : AdMap Nat := []
  ban : AdMap Nat := []
  landingPage : AdMap Nat := []
  tanx : AdMap Nat := []
  mark : AdFilterMark := {}
  descriptions : AdMap AdTanxDescription := []

/-- `AddData` of every filter. -/
def Filters.addData (filters : Filters) (placed : Allocated) : Filters :=
  { filters with
    time := FilterTables.addData timeKeys filters.time placed
    adExchange := FilterTables.addData adExchangeKeys filters.adExchange placed
    pid := FilterTables.addData pidKeys filters.pid placed
    area := FilterTables.addData areaKeys filters.area placed
    size := FilterTables.addData sizeKeys filters.size placed
    userAgent := FilterTables.addData userAgentKeys filters.userAgent placed
    mobileOperator := FilterTables.addData mobileOperatorKeys filters.mobileOperator placed
    mobileDevice := FilterTables.addData mobileDeviceKeys filters.mobileDevice placed
    mobileConnect := FilterTables.addData mobileConnectKeys filters.mobileConnect placed
    ban := FilterTables.addData banKeys filters.ban placed
    landingPage := FilterTables.addData landingPageKeys filters.landingPage placed
    tanx := FilterTables.addData tanxKeys filters.tanx placed
    mark := filters.mark.addData placed }

/-- `FiltersCreate` and the loop over the orders. -/
def build (orders : List Allocated) : Filters := orders.foldl Filters.addData {}

/-- Everything outside the request that a match depends on: the clocks, the table of the
real time filter and the answer of the user service. -/
structure MatchWorld where
  clock : LocalTime
  second : Int
  now : Time
  infos : UInt32 → Option AdRealTimeInfo
  user : AdUserData → Option AdUserData

/-- The filters one after the other, until the result is empty. -/
def runFilters : List (AdResult → Option AdResult) → AdResult → Option AdResult
  | [], result => some result
  | filter :: filters, result => do
    let result ← filter result
    if result = [] then return [] else runFilters filters result

def chain (unit : Nat → AdPlanningUnit) (filters : Filters) (world : MatchWorld)
    (r : AdRtbRequest) : List (AdResult → Option AdResult) :=
  let hits (bit : UInt32) (table : AdMap Nat) (asks : List Bytes) (result : AdResult) :=
    some (hit unit bit table asks result)
  [hits adFilterTime filters.time (timeAsks world.clock),
    hits adFilterAdx filters.adExchange (adExchangeAsks r),
    hits adFilterPid filters.pid (pidAsks r),
    hits adFilterArea filters.area (areaAsks r),
    hits adFilterSize filters.size (sizeAsks r),
    hits adFilterUa filters.userAgent (userAgentAsks r),
    hits adFilterMobileOperater filters.mobileOperator (mobileOperatorAsks r),
    hits adFilterMobileDevice filters.mobileDevice (mobileDeviceAsks r),
    hits adFilterMobileConnect filters.mobileConnect (mobileConnectAsks r),
    fun result => some (result.filter (parameterKeeps unit r)),
    fun result => some (eraseAll unit filters.ban (banAsks r) result),
    -- the landing pages are never loaded
    some,
    fun result => some (eraseAll unit filters.tanx (tanxAsks filters.descriptions r) result),
    fun result => some (result.filter (realTimeKeeps unit world.infos world.second)),
    some,
    filters.mark.matchRequest unit world.user world.now r]

/-- `FiltersMatch` on an empty result; `none` is a crash in the pattern search. -/
def filtersMatch (unit : Nat → AdPlanningUnit) (filters : Filters) (world : MatchWorld)
    (r : AdRtbRequest) : Option AdResult :=
  runFilters (chain unit filters world r) []

def AdMap.addresses (table : AdMap Nat) : List Nat := table.map Prod.snd

def markAddresses (mark : AdFilterMark) : List Nat :=
  mark.marks.map AdMarkInfo.data ++ mark.tree.data.map (fun entry => entry.2.data) ++
    mark.audience.map fun entry => entry.2.data

/-- Every address that the filters hold. -/
def Filters.references (filters : Filters) : List Nat :=
  [filters.time, filters.adExchange, filters.pid, filters.area, filters.size, filters.userAgent,
    filters.mobileOperator, filters.mobileDevice, filters.mobileConnect, filters.ban,
    filters.landingPage, filters.tanx].flatMap AdMap.addresses ++ markAddresses filters.mark

end RtbFilters
