import RtbAdapter.KeyValueStream

/-!
# Requests and responses

The string and list members of a request and of a response, named after the
members of the two classes. Members that no code below reads or writes are
left out.
-/

namespace RtbBase

open ByteWords KeyValueStream

inductive RequestText where
  | flow | adViewScreen | adViewType | bidID | userID | userIP | area | pId | size | userAgent
  | userUrl | minPrice | videoMinTime | videoMaxTime | linearity | idfa | imei | androidID
  | transaction | devUniqueType
  deriving DecidableEq

inductive RequestList where
  | siteCategory | ualist | create | category | sensitive | materialFormat | mobileOperator
  | mobileDevice | mobileConnect | crowdCategory
  deriving DecidableEq

inductive ResponseText where
  | flow | duration | advertiserId | tanxID | region | area | hotKey | hotUrl | hotTag | keyWord
  | hotTime | bidID | execID | userID | userIP | pId | createGID | size | orderID | creativeID
  | materialID | uud | creative | targetPriceType | targetPrice | maxPrice | category | html
  | width | height | htmlMraid | destUrl | clickUrl | materailFormat | adirectID | devType | cookID
  deriving DecidableEq

inductive ResponseList where
  | monitorUrl
  deriving DecidableEq

/-- A reading of the clock, in seconds and microseconds. -/
structure Time where
  sec : Int
  usec : Int
  deriving DecidableEq

/-- The microseconds from `t` to `now`, as an `unsigned int`. When the microseconds
of `now` are the smaller ones, their difference is added and not subtracted. -/
def Time.toNow (t now : Time) : Nat :=
  if t.usec ≤ now.usec then toUInt32 ((now.sec - t.sec) * 1000000 + now.usec - t.usec)
  else toUInt32 ((now.sec - t.sec) * 1000000 + t.usec - now.usec)

structure AdRtbRequest extends Message RequestText RequestList where
  adx : UInt32
  time : Time

structure AdRtbResponse extends Message ResponseText ResponseList where
  adx : UInt32

/-- `clear` empties every member and restarts the clock of the request. -/
def AdRtbRequest.clear (now : Time) : AdRtbRequest := { Message.empty with adx := 0, time := now }

def AdRtbResponse.clear : AdRtbResponse := { Message.empty with adx := 0 }

def adResponseMaxTime : Nat := 15000

/-- A request is late when its life exceeds `adResponseMaxTime`. -/
def AdRtbRequest.checkLife (r : AdRtbRequest) (now : Time) : Bool :=
  adResponseMaxTime < r.time.toNow now

theorem Time.toNow_self (t : Time) : t.toNow t = 0 := by
  simp [Time.toNow, toUInt32]

/-- A request that has just been cleared is never late. -/
theorem AdRtbRequest.checkLife_clear (now : Time) :
    (AdRtbRequest.clear now).checkLife now = false := by
  simp [checkLife, AdRtbRequest.clear, Time.toNow_self]

end RtbBase
