import RtbAdapter.CText

/-!
# Orders

The classes an order is kept in, with the members of the source. Maps are
ordered maps, as the source iterates over them. A member that the code never
sets or never reads is left out.
-/

namespace PlanningUnit

open ByteWords Std

def adOrderNice : UInt32 := 1
def adOrderBase : UInt32 := 2
def adOrderAudience : UInt32 := 3

def adMarkPublic : UInt32 := 1
def adMarkPrivate : UInt32 := 2
def adKeysAccCus : UInt32 := 3
def adKeysDimCus : UInt32 := 4

def adPidModeAll : UInt32 := 1
def adPidModeFixed : UInt32 := 2
def adPidModeOther : UInt32 := 3

def adWeekDays : Nat := 7
def adDayHours : Nat := 24

structure AdOrderInfo where
  advertiser : UInt32 := 0
  executeId : UInt32 := 0
  targetPriceType : UInt32 := 0
  targetPrice : UInt32 := 0
  limitePrice : UInt32 := 0
  bidmode : UInt32 := 0
  timeType : UInt32 := 0
  frequency : UInt32 := 0
  timeStamp : UInt32 := 0
  nice : UInt32 := 0
  adViewScreen : List UInt32 := []
  adViewType : List UInt32 := []
  tanxAdId : Bytes := []
  banId : List UInt32 := []
  banContent : List Bytes := []
  ctrType : UInt32 := 0
  minCtr : Rat := 0

structure AdMobileInfo where
  enable : Bool := false
  operator : List UInt32 := []
  deviceType : List UInt32 := []
  connectType : List UInt32 := []
  userAgentType : List UInt32 := []

structure AdPidInfo where
  adxId : UInt32 := 0
  mode : UInt32 := 0
  pidList : List Bytes := []

structure AdTimeDay where
  week : UInt32 := 0
  budget : UInt32 := 0
  hour : UInt32 := 0

structure AdTime where
  push : Bool := false
  start : Bytes := []
  stop : Bytes := []
  day : List AdTimeDay := List.replicate adWeekDays {}

structure AdMaterialInfo where
  format : UInt32 := 0
  videoTime : UInt32 := 0
  creativeType : UInt32 := 0
  width : UInt32 := 0
  height : UInt32 := 0
  category : Bytes := []
  uuId : Bytes := []
  createId : Bytes := []
  materialId : Bytes := []
  materialUrl : Bytes := []
  mraidMaterialUrl : Bytes := []
  clickUrl : Bytes := []
  destinationUrl : Bytes := []
  monitorUrl : List Bytes := []

structure AdCreativeInfo where
  creativeGroupId : Bytes := []
  adxId : Bytes := []
  materials : List AdMaterialInfo := []

structure AdAudienceNode where
  type : UInt32 := 0
  audienceID : Bytes := []
  search : TreeMap Bytes UInt32 := ∅
  visit : TreeMap Bytes UInt32 := ∅
  unVisit : TreeMap Bytes UInt32 := ∅

structure AdMarkNode where
  type : UInt32 := 0
  key : Bytes := []

/-- Where an entry of a price map stands: the map has a new generation whenever it is cleared. -/
structure PricePointer where
  generation : Nat
  execId : UInt32
  deriving DecidableEq

/-- An order. The list of banned places stands for the pointer to it, as it is read only
by the call that has set it. -/
structure AdPlanningUnit where
  order : AdOrderInfo := {}
  mobile : AdMobileInfo := {}
  time : AdTime := {}
  area : List Bytes := []
  creativeInfo : TreeMap UInt32 AdCreativeInfo := ∅
  pidInfo : List AdPidInfo := []
  keyWord : List AdMarkNode := []
  audience : List AdAudienceNode := []
  banPidList : Option (List Bytes) := none
  advancedPrice : Option PricePointer := none

/-- An order on the heap. -/
structure Allocated where
  address : Nat
  unit : AdPlanningUnit

abbrev OrderMap := TreeMap UInt32 Allocated

end PlanningUnit
