import RtbAdapter.PlanningUnit
import RtbAdapter.RtbBase

/-!
# The filters that look up tables

Each filter files an order under some keys when it is added, and looks up other
keys of a request to set a bit for the orders it finds, or to erase them.
Orders are held by address: what stands at an address is read when a request is
matched.
-/

namespace FilterTables

open ByteWords CText PlanningUnit RtbBase Std

/-- `AdMap`, as its entries in the order in which they were added. -/
abbrev AdMap (α : Type) := List (Bytes × α)

def AdMap.find {α : Type} (map : AdMap α) (key : Bytes) : List α :=
  (map.filter fun entry => entry.1 = key).map Prod.snd

structure AdRtbFilterResult where
  vip : Bool := false
  matched : UInt32 := 0
  deriving DecidableEq

/-- `AD_RESULT`: addresses ordered by the execution id of the order that stands there. -/
abbrev AdResult := List (Nat × AdRtbFilterResult)

section Results

variable (unit : Nat → AdPlanningUnit)

def execId (address : Nat) : UInt32 := (unit address).order.executeId

/-- `mResult[address]`, changed in place; an entry that is not there is made. -/
def upsert (change : AdRtbFilterResult → AdRtbFilterResult) (address : Nat) : AdResult → AdResult
  | [] => [(address, change {})]
  | entry :: rest =>
    if execId unit address < execId unit entry.1 then (address, change {}) :: entry :: rest
    else if execId unit address = execId unit entry.1 then (entry.1, change entry.2) :: rest
    else entry :: upsert change address rest

def erase (result : AdResult) (address : Nat) : AdResult :=
  result.filter fun entry => execId unit entry.1 ≠ execId unit address

def present (result : AdResult) (address : Nat) : Bool :=
  result.any fun entry => execId unit entry.1 = execId unit address

/-- A filter sets its bit for every order under the keys of a request. -/
def hit (bit : UInt32) (table : AdMap Nat) (keys : List Bytes) (result : AdResult) : AdResult :=
  (keys.flatMap table.find).foldl
    (fun result address =>
      upsert unit (fun r => { r with matched := r.matched ||| bit }) address result) result

/-- A filter erases every order under the keys of a request. -/
def eraseAll (table : AdMap Nat) (keys : List Bytes) (result : AdResult) : AdResult :=
  (keys.flatMap table.find).foldl (erase unit) result

end Results

def adFilterTime : UInt32 := 0x8000
def adFilterAdx : UInt32 := 0x4000
def adFilterPid : UInt32 := 0x2000
def adFilterArea : UInt32 := 0x1000
def adFilterSize : UInt32 := 0x0800
def adFilterUa : UInt32 := 0x0400
def adFilterMobileOperater : UInt32 := 0x0080
def adFilterMobileDevice : UInt32 := 0x0040
def adFilterMobileConnect : UInt32 := 0x0020
def adFilterNormal : UInt32 :=
  adFilterTime ||| adFilterAdx ||| adFilterPid ||| adFilterArea ||| adFilterSize ||| adFilterUa
def adFilterMobile : UInt32 :=
  adFilterMobileOperater ||| adFilterMobileDevice ||| adFilterMobileConnect

def adProtocolKeyAdxTanx : UInt32 := 1
def adProtocolKeyAdxBaidu : Int := 6

def adProtocolFlowPc : UInt32 := 0
def adProtocolFlowVideo : UInt32 := 1
def adProtocolFlowMobile : UInt32 := 2

def adAreaAll : Bytes := ascii "0086-ffff-ffff"

/-- The keys of an order that is pushed in no hour of the week are not filed. -/
def whenPushed (u : AdPlanningUnit) (keys : List Bytes) : List Bytes :=
  if u.time.push then keys else []

/-- `%d_%s` -/
def adxKey (adx : UInt32) (text : Bytes) : Bytes :=
  snprintf 128 (decimalUInt adx ++ ascii "_" ++ cStr text)

/-- `OTHER_%d_%s` -/
def otherKey (adx : UInt32) (text : Bytes) : Bytes :=
  snprintf 128 (ascii "OTHER_" ++ decimalUInt adx ++ ascii "_" ++ cStr text)

/-- `%dx%d` -/
def sizeText (m : AdMaterialInfo) : Bytes :=
  decimalUInt m.width ++ ascii "x" ++ decimalUInt m.height

def hourKey (week : Bytes) (hour : Nat) : Bytes := snprintf 128 (week ++ twoDigits hour)

def timeKeys (u : AdPlanningUnit) : List Bytes :=
  whenPushed u <| u.time.day.flatMap fun day =>
    ((List.range adDayHours).filter fun hour =>
      day.hour &&& ((1 : UInt32) <<< UInt32.ofNat hour) ≠ 0).map
        (hourKey (decimalUInt day.week))

def adExchangeKey (adx : UInt32) : Bytes := snprintf 32 (decimalUInt adx)

def adExchangeKeys (u : AdPlanningUnit) : List Bytes :=
  whenPushed u <| (u.pidInfo.filter fun pid => pid.adxId ≠ 0).map fun pid => adExchangeKey pid.adxId

def pidKeysOf (pid : AdPidInfo) : List Bytes :=
  if pid.mode = adPidModeAll then [snprintf 128 (decimalUInt pid.adxId ++ ascii "_ALL")]
  else if pid.mode = adPidModeFixed then pid.pidList.map (adxKey pid.adxId)
  else if pid.mode = adPidModeOther then pid.pidList.map (otherKey pid.adxId)
  else []

def pidKeys (u : AdPlanningUnit) : List Bytes := whenPushed u (u.pidInfo.flatMap pidKeysOf)

def areaKeys (u : AdPlanningUnit) : List Bytes := whenPushed u u.area

/-- The creatives of an order, in the order of their exchanges. -/
def creatives (u : AdPlanningUnit) : List AdCreativeInfo := u.creativeInfo.toList.map Prod.snd

def sizeKeys (u : AdPlanningUnit) : List Bytes :=
  whenPushed u <| ((creatives u).filter fun c => c.creativeGroupId ≠ [] ∧ c.adxId ≠ []).flatMap
    fun c => c.materials.map fun m => snprintf 128 (c.adxId ++ ascii "_" ++ sizeText m)

def numberKey (n : UInt32) : Bytes := snprintf 128 (decimalUInt n)

/-- The one filter of this kind that also files orders that are pushed in no hour. -/
def userAgentKeys (u : AdPlanningUnit) : List Bytes :=
  if u.mobile.userAgentType = [] then [ascii "0"] else u.mobile.userAgentType.map numberKey

def mobileOperatorKeys (u : AdPlanningUnit) : List Bytes :=
  whenPushed u (u.mobile.operator.map numberKey)

def mobileDeviceKeys (u : AdPlanningUnit) : List Bytes :=
  whenPushed u (u.mobile.deviceType.map numberKey)

def mobileConnectKeys (u : AdPlanningUnit) : List Bytes :=
  whenPushed u (u.mobile.connectType.map numberKey)

/-- `CAT_%s_%s`, for an exchange and a category. -/
def categoryKey (adx category : Bytes) : Bytes :=
  snprintf 128 (ascii "CAT_" ++ adx ++ ascii "_" ++ category)

/-- On one exchange a category is filed under its first two characters as well. -/
def materialBanKeys (adx : Bytes) (m : AdMaterialInfo) : List Bytes :=
  let sized (tag : String) (n : UInt32) : Bytes :=
    snprintf 128 (ascii tag ++ adx ++ ascii "_" ++ sizeText m ++ ascii "_" ++ decimalUInt n)
  (if m.creativeType ≠ 0 then [sized "CRT_" m.creativeType] else []) ++
    (if m.format ≠ 0 then [sized "FMT_" m.format] else []) ++
    (if m.category ≠ [] then
      categoryKey adx m.category ::
        (if atoi adx = adProtocolKeyAdxBaidu then [categoryKey adx (m.category.take 2)] else [])
    else [])

def banKeys (u : AdPlanningUnit) : List Bytes :=
  whenPushed u <| u.order.banContent ++ u.banPidList.getD [] ++
    ((creatives u).filter fun c => c.creativeGroupId ≠ []).flatMap fun c =>
      c.materials.flatMap (materialBanKeys c.adxId)

/-- The host of a url and its parent domains. -/
def landingPageUrlParse (url : Bytes) : List Bytes :=
  match strSplit url (ascii "//") with
  | _ :: host :: _ =>
    let host := ((strSplit host (ascii "/")).head?.bind fun host =>
      (strSplit host (ascii "?")).head?).getD []
    let parts := strSplit host (ascii ".")
    (List.range (parts.length - 1)).map fun n => (ascii ".").intercalate (parts.drop n)
  | _ => []

def landingPageKeys (u : AdPlanningUnit) : List Bytes :=
  whenPushed u <| (creatives u).flatMap fun c =>
    match c.materials with
    | m :: _ => (landingPageUrlParse m.destinationUrl).map cStr
    | [] => []

def tanxKeys (u : AdPlanningUnit) : List Bytes :=
  whenPushed u <| ((creatives u).filter fun c => c.creativeGroupId ≠ []).flatMap fun c =>
    (c.materials.filter fun m => m.category ≠ []).map fun m => categoryKey c.adxId m.category

/-- `AddData` of a filter with the given keys. -/
def addData (keys : AdPlanningUnit → List Bytes) (table : AdMap Nat) (placed : Allocated) :
    AdMap Nat :=
  table ++ (keys placed.unit).map fun key => (key, placed.address)

def flowOf (r : AdRtbRequest) : UInt32 := atoiUInt (cStr (r.text .flow))

/-- The weekday and the hour of the local time. -/
structure LocalTime where
  week : Nat
  hour : Nat

def timeAsks (clock : LocalTime) : List Bytes := [decimal clock.week ++ twoDigits clock.hour]

def adExchangeAsks (r : AdRtbRequest) : List Bytes := [adExchangeKey r.adx]

def pidAsks (r : AdRtbRequest) : List Bytes :=
  [snprintf 128 (decimalUInt r.adx ++ ascii "_ALL"), adxKey r.adx (r.text .pId)] ++
    (r.list .siteCategory).map (otherKey r.adx)

def areaAsks (r : AdRtbRequest) : List Bytes := [adAreaAll, r.text .area]

def sizeAsks (r : AdRtbRequest) : List Bytes := [adxKey r.adx (r.text .size)]

def numberAsks (texts : List Bytes) : List Bytes :=
  ascii "0" :: texts.map fun text => snprintf 128 (cStr text)

def userAgentAsks (r : AdRtbRequest) : List Bytes := numberAsks (r.list .ualist)

/-- The mobile filters only look at mobile requests. -/
def whenMobile (r : AdRtbRequest) (keys : List Bytes) : List Bytes :=
  if flowOf r = adProtocolFlowMobile then keys else []

def mobileOperatorAsks (r : AdRtbRequest) : List Bytes :=
  whenMobile r (numberAsks (r.list .mobileOperator))

def mobileDeviceAsks (r : AdRtbRequest) : List Bytes :=
  whenMobile r (numberAsks (r.list .mobileDevice))

def mobileConnectAsks (r : AdRtbRequest) : List Bytes :=
  whenMobile r (numberAsks (r.list .mobileConnect))

def categoryAsk (adx : UInt32) (category : Bytes) : Bytes :=
  categoryKey (decimalUInt adx) (cStr category)

def createAsk (r : AdRtbRequest) (create : Bytes) : Bytes :=
  snprintf 128 (ascii "CRT_" ++ decimalUInt r.adx ++ ascii "_" ++ cStr (r.text .size) ++
    ascii "_" ++ cStr create)

def banAsks (r : AdRtbRequest) : List Bytes :=
  [r.text .pId] ++ (r.list .sensitive).map (categoryAsk r.adx) ++
    (r.list .category).map (categoryAsk r.adx) ++ (r.list .create).map (createAsk r) ++
    [adxKey r.adx (r.text .pId)] ++ (r.list .siteCategory).map (adxKey r.adx)

/-- The excluded categories of a place, and where and when they are excluded. -/
structure AdTanxDescription where
  category : List Bytes
  interval : List Bytes
  area : List Bytes

def tanxAsks (descriptions : AdMap AdTanxDescription) (r : AdRtbRequest) : List Bytes :=
  if r.adx = adProtocolKeyAdxTanx then
    ((descriptions.find (r.text .pId)).filter fun d => d.area = [] ∧ d.interval = []).flatMap
      fun d => d.category.map (categoryAsk r.adx)
  else []

/-- `AdFilterParameter`: `wanted` is the size of a video. -/
def parameterKeeps (unit : Nat → AdPlanningUnit) (r : AdRtbRequest)
    (entry : Nat × AdRtbFilterResult) : Bool :=
  let u := unit entry.1
  let flow := flowOf r
  let view := atoiUInt (cStr (r.text .adViewScreen))
  let viewType := atoiUInt (cStr (r.text .adViewType))
  let mask := if flow = adProtocolFlowMobile then adFilterNormal ||| adFilterMobile
    else adFilterNormal
  let (width, height) := match strSplit (r.text .size) (ascii "x") with
    | [width, height] => (atoiUInt (cStr width), atoiUInt (cStr height))
    | _ => (0, 0)
  entry.2.matched = mask &&
    !((flow = adProtocolFlowMobile && !u.mobile.enable) ||
      (flow = adProtocolFlowPc && u.mobile.enable)) &&
    (u.order.adViewScreen = [] ||
      u.order.adViewScreen.any fun screen => screen = 0 || view ≤ screen) &&
    (u.order.adViewType = [] || u.order.adViewType.any fun type => type = 0 || type = viewType) &&
    (flow ≠ adProtocolFlowVideo ||
      (0 < height && 0 < width && ((u.creativeInfo[r.adx]?).getD {}).materials.any fun m =>
        m.height = height && m.width = width))

structure AdRealTimeInfo where
  pushFlag : UInt32
  time : Int

def adRealTimeStateOk : UInt32 := 0x14
def adRealTimeUsingTime : Int := 30

/-- `AdFilterRealTime`: an order that has an entry needs a recent one with leave to push. -/
def realTimeKeeps (unit : Nat → AdPlanningUnit) (infos : UInt32 → Option AdRealTimeInfo)
    (second : Int) (entry : Nat × AdRtbFilterResult) : Bool :=
  match infos (execId unit entry.1) with
  | some info => second - info.time ≤ adRealTimeUsingTime && info.pushFlag = adRealTimeStateOk
  | none => true

end FilterTables
