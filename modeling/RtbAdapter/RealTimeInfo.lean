import RtbAdapter.JsonValues
import RtbAdapter.PlanningUnit

/-!
# Budget control

An entry for each order holds its plan of the day and what the last control message
told about its spending. The message is checked against the plan, and the order
may be pushed until the next one.
-/

namespace RealTimeInfo

open ByteWords CText JsonValues PlanningUnit Std

def adRealTimeStateOk : UInt32 := 0x14
def adRealTimeStateOver : UInt32 := 0x15
def adRealTimeStateControl : UInt32 := 0x16
def adRealTimeStateShare : UInt32 := 0x17
def adRealTimeStateNoRange : UInt32 := 0x18
def adRealTimeStateNoRemain : UInt32 := 0x19

def adRealTimeUsingTime : Int := 30

/-- What may be spent in an hour, and what was. -/
structure AdClock where
  total : UInt64 := 0
  number : UInt64 := 0

structure AdRealTimeInfo where
  pushFlag : UInt32 := 0
  executeId : UInt32 := 0
  adv : UInt32 := 0
  time : Int := 0
  hourShare : Bool := false
  advsType : UInt32 := 0
  advsTime : UInt32 := 0
  haveShow : UInt32 := 0
  haveClick : UInt32 := 0
  willSpend : UInt32 := 0
  haveSpend : Int64 := 0
  advToday : Int64 := 0
  advRemain : Int64 := 0
  clock : Vector AdClock adDayHours := Vector.replicate adDayHours {}

/-- A control message (`ADRTDATA_S`). -/
structure AdRtData where
  executeId : UInt32
  adv : UInt32
  hour : UInt32
  show' : UInt32
  click : UInt32
  advToday : Int64
  advRemain : Int64
  haveSpend : Int64
  hourSpend : Int64

/-- The bit of an hour in a plan. -/
def hourSet (hours : UInt32) (hour : Nat) : Bool :=
  hours &&& ((1 : UInt32) <<< UInt32.ofNat hour) ≠ 0

/-- The planned hours from this one to the end of the day. -/
def hoursLeft (hours : UInt32) (hour : Nat) : Nat :=
  (List.range' hour (adDayHours - hour)).countP (hourSet hours)

/-- The slot of a plan for a weekday. -/
def dayOf (pUnit : AdPlanningUnit) (uiWeek : UInt32) : Option AdTimeDay :=
  pUnit.time.day.find? fun day => uiWeek = day.week

namespace AdRealTimeInfo

variable (sInfo : AdRealTimeInfo) (pUnit : AdPlanningUnit) (uiWeek : UInt32)

/-- The day's budget and hours. A plan without the day leaves those of an earlier one. -/
def addDay : AdRealTimeInfo :=
  match dayOf pUnit uiWeek with
  | some day => { sInfo with willSpend := day.budget, advsTime := day.hour }
  | none => sInfo

/-- What `AddData` writes into the entry. -/
def addData : AdRealTimeInfo :=
  let sInfo := { sInfo with
    executeId := pUnit.order.executeId
    adv := pUnit.order.advertiser
    advsType := pUnit.order.targetPriceType }
  let sInfo := { sInfo.addDay pUnit uiWeek with hourShare := pUnit.order.bidmode ≠ 0 }
  if pUnit.time.push then sInfo else { sInfo with pushFlag := adRealTimeStateNoRange }

variable (now : Int) (ctl : AdRtData) (hour : Fin adDayHours)

/-- The message is stored. -/
def store : AdRealTimeInfo :=
  { sInfo with
    time := now
    haveShow := ctl.show'
    haveClick := ctl.click
    haveSpend := ctl.haveSpend
    advRemain := ctl.advRemain
    advToday := ctl.advToday
    clock := sInfo.clock.set hour { sInfo.clock[hour] with number := ctl.hourSpend.toUInt64 } }

def setTotal (total : UInt64) : AdRealTimeInfo :=
  { sInfo with clock := sInfo.clock.set hour { sInfo.clock[hour] with total } }

/-- The hour's share of what was not spent before it. Where nothing is left, the total that was
there stays. -/
def hourTotal (uiNumber : UInt32) : UInt64 :=
  if uiNumber < sInfo.willSpend then
    match hoursLeft sInfo.advsTime hour with
    | 0 => sInfo.clock[hour].total
    | 1 => (sInfo.willSpend - uiNumber).toUInt64
    | uiHour => ((sInfo.willSpend - uiNumber) / UInt32.ofNat uiHour).toUInt64
  else sInfo.clock[hour].total

/-- The entry after a message, and the spend before the hour where it is computed: the code
keeps 32 bits of it. -/
structure Updated where
  info : AdRealTimeInfo
  before : Option Int := none

/-- The state of an entry with a message in it. -/
def control : Updated :=
  if sInfo.pushFlag = adRealTimeStateNoRange then { info := sInfo }
  else if 0 < sInfo.willSpend ∧ (sInfo.willSpend.toNat : Int) ≤ sInfo.haveSpend.toInt then
    { info := { sInfo with pushFlag := adRealTimeStateOver } }
  else if sInfo.advRemain.toInt ≤ 0 then
    { info := { sInfo with pushFlag := adRealTimeStateNoRemain } }
  else if !hourSet sInfo.advsTime hour then
    { info := { sInfo.setTotal hour 0 with pushFlag := adRealTimeStateControl } }
  else
    let before := sInfo.haveSpend.toInt - ctl.hourSpend.toInt
    let total := sInfo.hourTotal hour (UInt32.ofNat (toUInt32 before))
    let shared := sInfo.setTotal hour total
    if 0 < sInfo.willSpend ∧ sInfo.hourShare ∧ total ≤ sInfo.clock[hour].number then
      { info := { shared with pushFlag := adRealTimeStateShare }, before := some before }
    else { info := { shared with pushFlag := adRealTimeStateOk }, before := some before }

/-- `AdFilterRealTimeUpdate`. An hour outside the day is out of the bounds of the clock. -/
def adFilterRealTimeUpdate : Option Updated :=
  if inside : ctl.hour.toNat < adDayHours then
    some ((sInfo.store now ctl ⟨_, inside⟩).control ctl ⟨_, inside⟩)
  else none

end AdRealTimeInfo

namespace AdRealTimeInfo

variable {sInfo : AdRealTimeInfo} {now : Int} {ctl : AdRtData} {hour : Fin adDayHours}
  {uiNumber : UInt32}

/-- Nothing stops an order before its spend in this hour is looked at. -/
structure Reaches (sInfo : AdRealTimeInfo) (hour : Nat) : Prop where
  range : sInfo.pushFlag ≠ adRealTimeStateNoRange
  budget : sInfo.willSpend = 0 ∨ sInfo.haveSpend.toInt < sInfo.willSpend.toNat
  remain : 0 < sInfo.advRemain.toInt
  planned : hourSet sInfo.advsTime hour

/-- What the entry has of the plan. -/
structure SamePlan (s t : AdRealTimeInfo) : Prop where
  willSpend : t.willSpend = s.willSpend
  advsTime : t.advsTime = s.advsTime
  hourShare : t.hourShare = s.hourShare

theorem addDay_pushFlag (sInfo : AdRealTimeInfo) (pUnit : AdPlanningUnit) (uiWeek : UInt32) :
    (sInfo.addDay pUnit uiWeek).pushFlag = sInfo.pushFlag ∧
      (sInfo.addDay pUnit uiWeek).time = sInfo.time ∧
      (sInfo.addDay pUnit uiWeek).clock = sInfo.clock := by
  unfold addDay
  split
  · exact ⟨rfl, rfl, rfl⟩
  · exact ⟨rfl, rfl, rfl⟩

/-- A plan that is not pushed takes the leave away, and none gives it back. -/
theorem addData_pushFlag (sInfo : AdRealTimeInfo) (pUnit : AdPlanningUnit) (uiWeek : UInt32) :
    (sInfo.addData pUnit uiWeek).pushFlag =
        (if pUnit.time.push then sInfo.pushFlag else adRealTimeStateNoRange) ∧
      (sInfo.addData pUnit uiWeek).hourShare = decide (pUnit.order.bidmode ≠ 0) ∧
      (sInfo.addData pUnit uiWeek).clock = sInfo.clock ∧
      (sInfo.addData pUnit uiWeek).time = sInfo.time := by
  obtain ⟨flag, time, clock⟩ := addDay_pushFlag { sInfo with
    executeId := pUnit.order.executeId
    adv := pUnit.order.advertiser
    advsType := pUnit.order.targetPriceType } pUnit uiWeek
  simp only [addData]
  split
  · exact ⟨flag, rfl, clock, time⟩
  · exact ⟨rfl, rfl, clock, time⟩

theorem addData_day {sInfo : AdRealTimeInfo} {pUnit : AdPlanningUnit} {uiWeek : UInt32}
    {day : AdTimeDay} (named : dayOf pUnit uiWeek = some day) :
    (sInfo.addData pUnit uiWeek).willSpend = day.budget ∧
      (sInfo.addData pUnit uiWeek).advsTime = day.hour := by
  simp only [addData, addDay, named]
  split <;> exact ⟨rfl, rfl⟩

theorem store_clock :
    (sInfo.store now ctl hour).clock[hour] = ⟨sInfo.clock[hour].total, ctl.hourSpend.toUInt64⟩ := by
  simp [store]

theorem hourTotal_store :
    (sInfo.store now ctl hour).hourTotal hour uiNumber = sInfo.hourTotal hour uiNumber := by
  unfold hourTotal
  rw [store_clock]
  rfl

theorem control_time : (sInfo.control ctl hour).info.time = sInfo.time := by
  simp only [control]
  split_ifs <;> rfl

theorem control_samePlan : SamePlan sInfo (sInfo.control ctl hour).info := by
  simp only [control]
  split_ifs <;> exact ⟨rfl, rfl, rfl⟩

/-- An order without leave to push is left alone; another is stopped before the hour is looked
at, or its hour decides. -/
theorem control_cases (sInfo : AdRealTimeInfo) (ctl : AdRtData) (hour : Fin adDayHours) :
    sInfo.pushFlag = adRealTimeStateNoRange ∧ (sInfo.control ctl hour).before = none ∧
        (sInfo.control ctl hour).info.pushFlag = adRealTimeStateNoRange ∨
      sInfo.pushFlag ≠ adRealTimeStateNoRange ∧ ¬Reaches sInfo hour ∧
        (sInfo.control ctl hour).before = none ∧ (sInfo.control ctl hour).info.pushFlag ∈
          [adRealTimeStateOver, adRealTimeStateNoRemain, adRealTimeStateControl] ∨
      Reaches sInfo hour ∧
        (sInfo.control ctl hour).before =
          some (sInfo.haveSpend.toInt - ctl.hourSpend.toInt) ∧
        (sInfo.control ctl hour).info.pushFlag =
          if 0 < sInfo.willSpend ∧ sInfo.hourShare ∧ sInfo.hourTotal hour (UInt32.ofNat (toUInt32
              (sInfo.haveSpend.toInt - ctl.hourSpend.toInt))) ≤ sInfo.clock[hour].number
          then adRealTimeStateShare else adRealTimeStateOk := by
  unfold control
  by_cases range : sInfo.pushFlag = adRealTimeStateNoRange
  · rw [if_pos range]
    exact .inl ⟨range, rfl, range⟩
  rw [if_neg range]
  refine .inr ?_
  by_cases spent : 0 < sInfo.willSpend ∧ (sInfo.willSpend.toNat : Int) ≤ sInfo.haveSpend.toInt
  · rw [if_pos spent]
    refine .inl ⟨range, fun reaches => ?_, rfl, by simp⟩
    rcases reaches.budget with free | below
    · exact UInt32.pos_iff_ne_zero.mp spent.1 free
    · omega
  rw [if_neg spent]
  by_cases empty : sInfo.advRemain.toInt ≤ 0
  · rw [if_pos empty]
    refine .inl ⟨range, fun reaches => ?_, rfl, by simp⟩
    have remain := reaches.remain
    omega
  rw [if_neg empty]
  by_cases planned : hourSet sInfo.advsTime hour
  · have reaches : Reaches sInfo hour := by
      refine ⟨range, ?_, by omega, planned⟩
      by_cases free : sInfo.willSpend = 0
      · exact .inl free
      · have below := not_and.mp spent (UInt32.pos_iff_ne_zero.mpr free)
        exact .inr (by omega)
    refine .inr ⟨reaches, ?_⟩
    rw [if_neg (by simpa using planned)]
    dsimp only
    split_ifs
    · exact ⟨rfl, rfl⟩
    · exact ⟨rfl, rfl⟩
  · rw [if_pos (by simpa using planned)]
    exact .inl ⟨range, fun reaches => planned reaches.planned, rfl, by simp⟩

/-- A message neither gives nor takes the leave to push. -/
theorem control_range : (sInfo.control ctl hour).info.pushFlag = adRealTimeStateNoRange ↔
    sInfo.pushFlag = adRealTimeStateNoRange := by
  rcases control_cases sInfo ctl hour with
    ⟨range, -, flag⟩ | ⟨range, -, -, flag⟩ | ⟨reaches, -, flag⟩
  · exact iff_of_true flag range
  · refine iff_of_false (fun same => ?_) range
    rw [same] at flag
    exact absurd flag (by decide)
  · refine iff_of_false (fun same => ?_) reaches.range
    rw [same] at flag
    split at flag
    · exact absurd flag (by decide)
    · exact absurd flag (by decide)

/-- Totals are words of 32 bits. -/
def Bounded (sInfo : AdRealTimeInfo) : Prop :=
  ∀ hour : Fin adDayHours, sInfo.clock[hour].total.toNat < 2 ^ 32

theorem hourTotal_lt (bounded : Bounded sInfo) :
    (sInfo.hourTotal hour uiNumber).toNat < 2 ^ 32 := by
  unfold hourTotal
  split
  · split
    · exact bounded hour
    · rw [UInt32.toNat_toUInt64]
      exact UInt32.toNat_lt _
    · rw [UInt32.toNat_toUInt64]
      exact UInt32.toNat_lt _
  · exact bounded hour

theorem setTotal_bounded {total : UInt64} (bounded : Bounded sInfo) (low : total.toNat < 2 ^ 32) :
    Bounded (sInfo.setTotal hour total) := by
  intro other
  simp only [setTotal, Fin.getElem_fin, Vector.getElem_set]
  split
  · exact low
  · exact bounded other

theorem store_bounded (bounded : Bounded sInfo) : Bounded (sInfo.store now ctl hour) := by
  intro other
  simp only [store, Fin.getElem_fin, Vector.getElem_set]
  split
  · exact bounded hour
  · exact bounded other

theorem control_bounded (bounded : Bounded sInfo) : Bounded (sInfo.control ctl hour).info := by
  simp only [control]
  split_ifs
  · exact bounded
  · exact bounded
  · exact bounded
  · exact setTotal_bounded bounded (by simp)
  · exact setTotal_bounded bounded (hourTotal_lt bounded)
  · exact setTotal_bounded bounded (hourTotal_lt bounded)

theorem hoursLeft_pos {hours : UInt32} (planned : hourSet hours hour) : 0 < hoursLeft hours hour :=
  List.countP_pos_iff.mpr ⟨hour, List.mem_range'_1.mpr (by omega), planned⟩

theorem hoursLeft_le (hours : UInt32) (hour : Nat) : hoursLeft hours hour ≤ adDayHours := by
  have counted := List.countP_le_length (p := hourSet hours)
    (l := List.range' hour (adDayHours - hour))
  rw [List.length_range'] at counted
  exact counted.trans (Nat.sub_le ..)

/-- The total of an hour with something left for it. -/
theorem hourTotal_toNat (left : uiNumber < sInfo.willSpend)
    (planned : hourSet sInfo.advsTime hour) :
    (sInfo.hourTotal hour uiNumber).toNat =
      (sInfo.willSpend.toNat - uiNumber.toNat) / hoursLeft sInfo.advsTime hour := by
  have less : uiNumber ≤ sInfo.willSpend := by
    rw [UInt32.le_iff_toNat_le]
    exact (UInt32.lt_iff_toNat_lt.mp left).le
  have few := hoursLeft_le sInfo.advsTime hour
  rw [hourTotal, if_pos left]
  split
  · next none =>
    have some' := hoursLeft_pos planned
    omega
  · next one =>
    rw [one, UInt32.toNat_toUInt64, UInt32.toNat_sub_of_le _ _ less, Nat.div_one]
  · rw [UInt32.toNat_toUInt64, UInt32.toNat_div, UInt32.toNat_sub_of_le _ _ less,
      UInt32.toNat_ofNat_of_lt' (by rw [UInt32.size]; unfold adDayHours at few; omega)]

end AdRealTimeInfo

/-- The message is for the budget control: its type is compared over the length of another
member. -/
def typeAccepted (value : JsonValue) : Option Bool := do
  match ← value.isMember "type" with
  | false => return false
  | true =>
    let type ← (← value.field "type").asString
    let league ← (← value.field "league").asString
    return strncmpSame (ascii "1") type league.length

/-- The members of a message. One that is missing is left as it is. -/
def readMembers (value : JsonValue) (stRTData : AdRtData) : Option AdRtData := do
  let uint (key : String) (unset : UInt32) : Option UInt32 :=
    value.optional key unset fun member => member.asString.map atoiUInt
  let long (key : String) (unset : Int64) : Option Int64 :=
    value.optional key unset fun member => member.asString.map strtoul
  let executeId ← uint "eid" stRTData.executeId
  let adv ← uint "adv" stRTData.adv
  let hour ← uint "hour" stRTData.hour
  let show' ← uint "show" stRTData.show'
  let click ← uint "click" stRTData.click
  let advToday ← long "advtoday" stRTData.advToday
  let advRemain ← long "advremain" stRTData.advRemain
  let haveSpend ← long "havespend" stRTData.haveSpend
  let hourSpend ← long "hourspend" stRTData.hourSpend
  return { executeId, adv, hour, show', click, advToday, advRemain, haveSpend, hourSpend }

/-- What `AdFilterPushData` hands to the update: `parsed` is what the parser makes of the
datagram, `stRTData` what the memory of the message holds before. -/
def adFilterPushData (parsed : Option JsonValue) (stRTData : AdRtData) : Option AdRtData :=
  match parsed with
  | none => some stRTData
  | some value => do
    match ← typeAccepted value with
    | true => readMembers value stRTData
    | false => return stRTData

/-- The order that a datagram is about. -/
def orderOf (parsed : Option JsonValue) : Option UInt32 := do
  let value ← parsed
  match ← typeAccepted value, ← value.isMember "eid" with
  | true, true => (← value.field "eid").asString.map atoiUInt
  | _, _ => none

theorem readMembers_order {value : JsonValue} {unset ctl : AdRtData}
    (read : readMembers value unset = some ctl) :
    value.optional "eid" unset.executeId (fun member => member.asString.map atoiUInt) =
      some ctl.executeId := by
  simp only [readMembers, Option.bind_eq_bind, Option.bind_eq_some_iff] at read
  obtain ⟨executeId, named, adv, -, hour, -, show', -, click, -, advToday, -, advRemain, -,
    haveSpend, -, hourSpend, -, same⟩ := read
  obtain rfl := Option.some.inj same
  exact named

def memberNames : List String :=
  ["eid", "adv", "hour", "show", "click", "advtoday", "advremain", "havespend", "hourspend"]

/-- A message with all its members does not depend on what the memory held before. -/
theorem readMembers_complete {value : JsonValue} (unset unset' : AdRtData)
    (complete : ∀ key ∈ memberNames, value.isMember key = some true) :
    readMembers value unset = readMembers value unset' := by
  have present : ∀ key ∈ memberNames, ∀ {α : Type} (absent absent' : α)
      (read : JsonValue → Option α),
      value.optional key absent read = value.optional key absent' read := by
    intro key listed α absent absent' read
    simp only [JsonValue.optional, complete key listed]
    rfl
  simp only [readMembers, present "eid" (by simp [memberNames]) _ unset'.executeId,
    present "adv" (by simp [memberNames]) _ unset'.adv,
    present "hour" (by simp [memberNames]) _ unset'.hour,
    present "show" (by simp [memberNames]) _ unset'.show',
    present "click" (by simp [memberNames]) _ unset'.click,
    present "advtoday" (by simp [memberNames]) _ unset'.advToday,
    present "advremain" (by simp [memberNames]) _ unset'.advRemain,
    present "havespend" (by simp [memberNames]) _ unset'.haveSpend,
    present "hourspend" (by simp [memberNames]) _ unset'.hourSpend]

/-- The update is made for the order that the datagram is about. -/
theorem pushData_order {parsed : Option JsonValue} {unset ctl : AdRtData} {executeId : UInt32}
    (named : orderOf parsed = some executeId) (pushed : adFilterPushData parsed unset = some ctl) :
    ctl.executeId = executeId := by
  cases parsed with
  | none => cases named
  | some value =>
    simp only [orderOf, adFilterPushData, Option.bind_eq_bind, Option.bind_some] at named pushed
    cases accepted : typeAccepted value with
    | none => simp [accepted] at named
    | some type =>
      cases member : value.isMember "eid" with
      | none => simp [accepted, member] at named
      | some there =>
        match type, there with
        | true, true =>
          have read := readMembers_order (by simpa [accepted] using pushed)
          rw [JsonValue.optional, member] at read
          simp only [accepted, member, Option.bind_some] at named
          exact Option.some.inj (read.symm.trans named)
        | true, false => simp [accepted, member] at named
        | false, _ => simp [accepted, member] at named

end RealTimeInfo
