import RtbAdapter.JsonValues
import RtbAdapter.NetProtocol
import RtbAdapter.PingPong
import RtbAdapter.PlanningUnit

/-!
# The order data of the engine

How orders, banned places and prices are read from redis into the maps of
`AdPlanningData`. Every single call to redis may fail. What redis holds, and
the text of every order, is arbitrary, and a text that makes the JSON library
throw ends the process (`none`).
-/

namespace PlanningData

open ByteWords CText JsonValues PingPong PlanningUnit Std
open NetProtocol (adSuccess adFailure)

/-- The clock, and what `mktime` makes of a text that went through `strptime`. -/
structure Calendar where
  now : Int
  mktime : Bytes → Int

variable (parse : Bytes → Option JsonValue)

def adDayTime : Nat := 32

/-- Whether an order is in its range of days. A text that is empty or does not parse
passes as well. -/
def dataJsonCheck (calendar : Calendar) (text : Bytes) : Option Int :=
  if text = [] then some adSuccess
  else match parse text with
  | none => some adSuccess
  | some value => do
    if !(← value.isMember "range") then return adSuccess
    let range ← value.field "range"
    let start ← (← range.field "start").asString
    if calendar.mktime (snprintf adDayTime (start ++ ascii " 00:00:00")) < calendar.now then
      let stop ← (← range.field "end").asString
      if stop ≠ [] ∧
          calendar.mktime (snprintf adDayTime (stop ++ ascii " 23:59:59")) < calendar.now then
        return adFailure
      return adSuccess
    return adFailure

def dataParseOrder (value : JsonValue) : Option AdOrderInfo := do
  let advertiser ← (← value.field "advertiser").asUINT
  let executeId ← (← value.field "execid").asUINT
  let targetPrice ← (← value.field "target_price").asUINT
  let targetPriceType ← (← value.field "target_price_type").asUINT
  let limitePrice ← value.optional "limit_price" 0 JsonValue.asUINT
  let bidmode ← (← value.field "hour_share").asUINT
  let adViewScreen ← value.optional "screen" [] JsonValue.uints
  let adViewType ← value.optional "space_type" [] JsonValue.uints
  let timeType ← value.optional "ord_ctl" 0 JsonValue.asUINT
  let frequency ← value.optional "ord_freq" 0 JsonValue.asUINT
  let tanxAdId ← value.optional "advertiser_tb" [] JsonValue.asString
  let minCtr ← value.optional "ctr_min" 0 JsonValue.asDouble
  let ctrType ← value.optional "ctr_type" 0 JsonValue.asUINT
  return { nice := adOrderBase, advertiser, executeId, targetPrice, targetPriceType, limitePrice,
           bidmode, adViewScreen, adViewType, timeType, frequency, tanxAdId, minCtr, ctrType }

def dataParsePid (value : JsonValue) : Option AdPidInfo := do
  let adxId := atoiUInt (← (← value.field "adx_id").asString)
  let mode ← (← value.field "select_type").asUINT
  let pidList ←
    if mode = adPidModeFixed ∨ mode = adPidModeOther then
      JsonValue.strings (← value.field "spid")
    else some []
  return ⟨adxId, mode, pidList⟩

/-- One day of the week. The shift count is taken modulo 32, as the machine does. -/
def dataParseDay (value : JsonValue) : Option AdTimeDay := do
  let week ← (← value.field "weekday").asUINT
  let budget ← (← value.field "budget").asUINT
  let hours ← (← (← value.field "hour").items).mapM JsonValue.asUINT
  return ⟨week, budget, hours.foldl (fun bits hour => bits ||| (1 : UInt32) <<< hour) 0⟩

/-- The days are written into an array of seven: an eighth one is out of bounds. -/
def dataParseTime (value : JsonValue) : Option AdTime := do
  let start ← (← value.field "start").asString
  let stop ← (← value.field "end").asString
  let days ← (← (← value.field "week").items).mapM dataParseDay
  if adWeekDays < days.length then none
  else return { push := days ≠ [], start, stop,
                day := days ++ List.replicate (adWeekDays - days.length) {} }

def dataParseMark (value : JsonValue) : Option (List AdMarkNode) := do
  let marks (key : String) (type : UInt32) : Option (List AdMarkNode) := do
    return (← value.optional key [] JsonValue.strings).map fun key => ⟨type, key⟩
  return (← marks "mark" adMarkPublic) ++ (← marks "acc_cus_keyword" adKeysAccCus) ++
    (← marks "dim_cus_keyword" adKeysDimCus) ++ (← marks "private_mark" adMarkPrivate)

def adAudienceUnvisit : Int := 0
def adAudienceVisit : Int := 1
def adAudienceSearch : Int := 2

def dataParseTag (audience : AdAudienceNode) (value : JsonValue) : Option AdAudienceNode := do
  if !(← value.isMember "datas") then return audience
  let limit ← (← value.field "date_limit").asUINT
  let time := if limit = 0 then 30 else limit
  (← (← value.field "datas").items).foldlM (fun audience data => do
    let visit ← (← value.field "visit_type").asInt
    if visit = adAudienceUnvisit then
      return { audience with unVisit := audience.unVisit.insert (← data.asString) time }
    else if visit = adAudienceVisit then
      return { audience with visit := audience.visit.insert (← data.asString) time }
    else if visit = adAudienceSearch then
      return { audience with search := audience.search.insert (← data.asString) time }
    else return audience) audience

/-- One entry of `marks`. Without `tag_datas` it leaves its id and type to the next one. -/
def dataParseAudienceMark (state : AdAudienceNode × List AdAudienceNode) (value : JsonValue) :
    Option (AdAudienceNode × List AdAudienceNode) := do
  let audienceID ← value.optional "mark_id" state.1.audienceID JsonValue.asString
  let type ← value.optional "merge_type" state.1.type JsonValue.asUINT
  let audience := { state.1 with audienceID, type }
  if !(← value.isMember "tag_datas") then return (audience, state.2)
  let audience ← (← (← value.field "tag_datas").items).foldlM dataParseTag audience
  return ({}, state.2 ++ [audience])

def dataParseAudience (value : JsonValue) : Option (List AdAudienceNode) :=
  value.optional "marks" [] fun marks => do
    return (← (← marks.items).foldlM dataParseAudienceMark ({}, [])).2

def dataParseMaterial (value : JsonValue) : Option AdMaterialInfo := do
  let createId ← value.optional "cid" [] fun cid => do
    return snprintf 64 (decimal (← cid.asInt))
  let materialId ← (← value.field "mid").asString
  let uuId ← (← value.field "uuid").asString
  let format ← (← value.field "format").asUINT
  let creativeType ← (← value.field "creative_type").asUINT
  let width ← (← value.field "width").asUINT
  let height ← (← value.field "height").asUINT
  let videoTime ← value.optional "duration" 0 JsonValue.asUINT
  let clickUrl ← value.optional "click_through_url" [] JsonValue.asString
  let destinationUrl ← value.optional "destination_url" [] JsonValue.asString
  let materialUrl ← value.optional "material_url" [] JsonValue.asString
  let mraidMaterialUrl ← value.optional "material_url_mraid" [] JsonValue.asString
  let category ← value.optional "ad_type" [] JsonValue.asString
  let monitorUrl ← value.optional "monitor_url" [] JsonValue.strings
  return { createId := createId, materialId, uuId, format, creativeType, width, height, videoTime,
           clickUrl, destinationUrl, materialUrl, mraidMaterialUrl, category, monitorUrl }

/-- Entries of one exchange share their materials. -/
def dataParseCreate (creates : TreeMap UInt32 AdCreativeInfo) (value : JsonValue) :
    Option (TreeMap UInt32 AdCreativeInfo) := do
  let adxId ← (← value.field "adx_id").asString
  let creativeGroupId ← (← value.field "gid").asString
  let materials ← (← (← value.field "material").items).mapM dataParseMaterial
  let create : AdCreativeInfo := (creates[atoiUInt adxId]?).getD {}
  return creates.insert (atoiUInt adxId)
    ⟨creativeGroupId, adxId, create.materials ++ materials⟩

def dataParseMobile (value : JsonValue) : Option AdMobileInfo := do
  let device ← value.optional "device" {} fun device => do
    let operator ← device.optional "operator" [] JsonValue.uints
    let deviceType ← device.optional "dev" [] JsonValue.uints
    let connectType ← device.optional "webcon" [] JsonValue.uints
    let userAgentType ← device.optional "ua" [] JsonValue.uints
    return { operator := operator, deviceType, connectType, userAgentType : AdMobileInfo }
  let enable ← value.optional "patform" false fun platform => do
    return atoi (← platform.asString) = 2
  return { device with enable }

/-- An order fails to parse without its order, places, range, areas or creatives. -/
def dataParse (text : Bytes) : Option (Int × AdPlanningUnit) :=
  match parse text with
  | none => some (adFailure, {})
  | some value => do
    let order ← value.optional "order" {} dataParseOrder
    let pidInfo ← value.optional "pid" [] fun pids => do (← pids.items).mapM dataParsePid
    let time ← value.optional "range" {} dataParseTime
    let area ← value.optional "area" [] JsonValue.strings
    let marked ← value.optional "marks" false fun marks => some (decide (0 < marks.size))
    let audience ← dataParseAudience value
    let keyWord ← dataParseMark value
    let mobile ← dataParseMobile value
    let creativeInfo ← value.optional "create" ∅ fun creates => do
      (← creates.items).foldlM dataParseCreate ∅
    let banId ← value.optional "ban_list" [] JsonValue.uints
    let timeStamp ← value.optional "timestamp" 0 fun stamp => do
      return atoiUInt (← stamp.asString)
    let nice := if keyWord ≠ [] then adOrderNice
      else if marked ∨ audience ≠ [] then adOrderAudience else order.nice
    let complete ← ["order", "pid", "range", "area", "create"].allM fun key => value.isMember key
    return (if complete then adSuccess else adFailure,
      { order := { order with nice, banId, timeStamp }, mobile, time, area, creativeInfo,
        pidInfo, keyWord, audience })

/-- A single call to redis, named by where the code makes it. -/
inductive RedisCall where
  | dataConnect | timestamp | rawKeys
  | raw (index : Nat)
  | ban (execId : UInt32) (index : Nat)
  | systemConnect
  | sadd (execId : UInt32)
  | priceConnect | seniorKeys
  | senior (index : Nat)
  | filterConnect
  | pidKeys (execId : UInt32)
  deriving DecidableEq

/-- Which calls succeed during one update, and what redis answers them. A field that is
absent is answered with an empty string. -/
structure Redis where
  ok : RedisCall → Bool
  timestamp : Int
  rawKeys : List Bytes
  raw : Bytes → Bytes
  ban : Bytes → Bytes
  seniorKeys : List Bytes
  senior : Bytes → Bytes
  pidKeys : Bytes → List Bytes

structure AdAdvancedPrice where
  pid : Bytes := []
  type : Int := 0
  adxId : Int := 0
  epv : Int := 0
  eprice : Int := 0
  execId : UInt32 := 0

abbrev PriceTable := TreeMap UInt32 (TreeMap Bytes AdAdvancedPrice)

/-- A price map. Clearing it frees its entries, so that later ones have new addresses. -/
structure PriceMap where
  generation : Nat
  entries : PriceTable

structure AdPlanningData where
  data : AdPingPongBuffer OrderMap
  lastTimeStamp : Int
  advancePrice : AdPingPongBuffer PriceMap
  /-- The next address that `new` returns. -/
  nextAddress : Nat
  nextGeneration : Nat

/-- The constructor. -/
def AdPlanningData.fresh : AdPlanningData where
  data := ⟨∅, ∅, false⟩
  lastTimeStamp := 0
  advancePrice := ⟨⟨0, ∅⟩, ⟨1, ∅⟩, false⟩
  nextAddress := 0
  nextGeneration := 2

variable (calendar : Calendar) (redis : Redis)

structure Loading where
  map : OrderMap
  nextAddress : Nat

def dataPush (text : Bytes) (loading : Loading) : Option (Int × Loading) := do
  if (← dataJsonCheck parse calendar text) ≠ adSuccess then return (adSuccess, loading)
  let (ret, unit) ← dataParse parse text
  let nextAddress := loading.nextAddress + 1
  if ret = adSuccess then
    return (adSuccess,
      ⟨loading.map.insert unit.order.executeId ⟨loading.nextAddress, unit⟩, nextAddress⟩)
  else return (adFailure, ⟨loading.map, nextAddress⟩)

def loadOrders : List (Bytes × Nat) → Loading → Option (Int × Loading)
  | [], loading => some (adSuccess, loading)
  | (key, index) :: keys, loading =>
    if redis.ok (.raw index) then do
      let (ret, loading) ← dataPush parse calendar (redis.raw key) loading
      if ret = adSuccess then loadOrders keys loading else return (ret, loading)
    else some (adFailure, loading)

/-- The places of one banned advertiser, `none` when the answer does not parse. -/
def banPlaces (answer : Bytes) : Option (Option (List Bytes)) :=
  if answer = [] then some (some [])
  else match parse answer with
  | none => some none
  | some value => do
    let places ← (← value.items).mapM fun item => do
      if !(← item.isMember "adx_id") then return []
      let adx ← (← item.field "adx_id").asString
      let pids ← item.optional "spid" [] JsonValue.strings
      return pids.map fun pid => snprintf 128 (adx ++ ascii "_" ++ pid)
    return some places.flatten

def banKey (banId : UInt32) : Bytes := snprintf 128 (decimalUInt banId)

/-- The loop over the ban ids of one order, with the content read so far. -/
def loadBan (execId : UInt32) : List (UInt32 × Nat) → List Bytes → Option (Int × List Bytes)
  | [], content => some (adSuccess, content)
  | (banId, index) :: ids, content =>
    if redis.ok (.ban execId index) then do
      match ← banPlaces parse (redis.ban (banKey banId)) with
      | some places => loadBan execId ids (content ++ places)
      | none => return (adFailure, content)
    else some (adFailure, content)

def Allocated.withBan (placed : Allocated) (banContent : List Bytes) : Allocated :=
  { placed with unit := { placed.unit with order := { placed.unit.order with banContent } } }

def dataUpdateBanList : List (UInt32 × Allocated) → OrderMap → Option (Int × OrderMap)
  | [], map => some (adSuccess, map)
  | (execId, placed) :: rest, map => do
    let (ret, content) ←
      loadBan parse redis execId placed.unit.order.banId.zipIdx placed.unit.order.banContent
    let map := map.insert execId (Allocated.withBan placed content)
    if ret = adSuccess then dataUpdateBanList rest map else return (ret, map)

/-- The orders of today are written back, one by one until a write fails. -/
def dataUpdateForSystem (map : OrderMap) : Int :=
  if map.isEmpty then adFailure
  else if redis.ok .systemConnect ∧ map.toList.all fun entry => redis.ok (.sadd entry.1) then
    adSuccess
  else adFailure

/-- What a call returns, the size it reports and the state it leaves. -/
structure Updated where
  ret : Int
  size : Nat
  state : AdPlanningData

/-- The orders and their ban content, read into an emptied map. -/
def readOrders (nextAddress : Nat) : Option (Int × Loading) := do
  let (ret, loading) ← loadOrders parse calendar redis redis.rawKeys.zipIdx ⟨∅, nextAddress⟩
  if ret = adSuccess then
    let (ret, map) ← dataUpdateBanList parse redis loading.map.toList loading.map
    return (ret, { loading with map })
  else return (ret, loading)

def AdPlanningData.dataUpdate (s : AdPlanningData) : Option Updated :=
  if !redis.ok .dataConnect then some ⟨adFailure, 0, s⟩
  else if !redis.ok .timestamp then some ⟨adFailure, 0, s⟩
  else if redis.timestamp = s.lastTimeStamp then some ⟨adSuccess, 0, s⟩
  else if !redis.ok .rawKeys then some ⟨adFailure, 0, s⟩
  else do
    let (ret, loading) ← readOrders parse calendar redis s.nextAddress
    let data := s.data.setBack loading.map
    if ret = adSuccess then
      -- the outcome of the last stage is returned after the switch
      return ⟨dataUpdateForSystem redis loading.map, loading.map.size,
        { s with data := data.switch, lastTimeStamp := redis.timestamp,
                 nextAddress := loading.nextAddress }⟩
    else return ⟨ret, 0, { s with data, nextAddress := loading.nextAddress }⟩

def pidKey (execId : UInt32) : Bytes :=
  snprintf 128 (ascii "exec:senior:filter:pid:" ++ decimalUInt execId)

def Allocated.withPids (placed : Allocated) (pids : List Bytes) : Allocated :=
  { placed with unit := { placed.unit with banPidList := some pids } }

def loadPids : List (UInt32 × Allocated) → OrderMap → Int × OrderMap
  | [], map => (adSuccess, map)
  | (execId, placed) :: rest, map =>
    if redis.ok (.pidKeys execId) then
      loadPids rest (map.insert execId (Allocated.withPids placed (redis.pidKeys (pidKey execId))))
    else (adFailure, map)

def AdPlanningData.dataUpdateAdvancedFilterResult (s : AdPlanningData) : Int × AdPlanningData :=
  if s.data.get.isEmpty then (adFailure, s)
  else if !redis.ok .filterConnect then (adFailure, s)
  else
    let (ret, map) := loadPids redis s.data.get.toList s.data.get
    (ret, { s with data := s.data.set map })

/-- The prices of one order. Its return value is ignored by the caller. -/
def dataParseAdvancedPriceData (text : Bytes) (execId : UInt32) (table : PriceTable) :
    Option PriceTable :=
  match parse text with
  | none => some table
  | some value => do
    (← value.items).foldlM (fun table item => do
      let adxId := atoi (← (← item.field "adx_id").asString)
      let type := atoi (← (← item.field "type").asString)
      let epv := toInt32 ((← (← item.field "epv").asInt) * 1000)
      let eprice ← (← item.field "eprice").asInt
      let pid ← (← item.field "spid").asString
      let entry : TreeMap Bytes AdAdvancedPrice := (table[execId]?).getD ∅
      return table.insert execId (entry.insert pid { pid, type, adxId, epv, eprice, execId })) table

def loadPrices : List (Bytes × Nat) → PriceTable → Option (Int × PriceTable)
  | [], table => some (adSuccess, table)
  | (key, index) :: keys, table =>
    if redis.ok (.senior index) then do
      loadPrices keys (← dataParseAdvancedPriceData parse (redis.senior key) (atoiUInt key) table)
    else some (adFailure, table)

def readPrices : Option (Int × PriceTable) :=
  if redis.ok .priceConnect ∧ redis.ok .seniorKeys then
    loadPrices parse redis redis.seniorKeys.zipIdx ∅
  else some (adFailure, ∅)

def PriceMap.find (prices : PriceMap) (execId : UInt32) : Option PricePointer :=
  if execId ∈ prices.entries then some ⟨prices.generation, execId⟩ else none

def Allocated.withPrice (prices : PriceMap) (placed : Allocated) : Allocated :=
  let advancedPrice := prices.find placed.unit.order.executeId
  { placed with unit := { placed.unit with advancedPrice } }

/-- The cleared half is filled and made visible, also when the reading stopped half way. -/
def AdPlanningData.dataUpdateAdvancedPriceData (s : AdPlanningData) :
    Option (Int × AdPlanningData) := do
  let (ret, entries) ← readPrices parse redis
  let prices : PriceMap := ⟨s.nextGeneration, entries⟩
  let s := { s with advancePrice := (s.advancePrice.setBack prices).switch,
                    nextGeneration := s.nextGeneration + 1 }
  if ret = adSuccess then
    return (ret, { s with data := s.data.set (s.data.get.map fun _ => Allocated.withPrice prices) })
  else return (ret, s)

end PlanningData
