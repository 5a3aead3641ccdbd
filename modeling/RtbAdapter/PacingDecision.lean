import RtbAdapter.RealTimeControl

/-!
# Pacing of an order

A control message is weighed against the plan that its order was added with last. The
code does so as long as the spends make sense, the hour is one of the day and the
order has not lost its leave to push before.
-/

namespace PacingDecision

open ByteWords PlanningUnit RealTimeInfo RealTimeControl AdRealTimeInfo Std

/-- The spend of the day up to the hour of a message. -/
def spendBefore (ctl : AdRtData) : Int := ctl.haveSpend.toInt - ctl.hourSpend.toInt

/-- What a budget has left for the hour, shared among the planned hours to come. -/
def hourLeft (budget hours : UInt32) (ctl : AdRtData) : Int :=
  (budget.toNat - spendBefore ctl) / hoursLeft hours ctl.hour.toNat

/-- The plan of an order affords to push it after a message. -/
structure Affords (pUnit : AdPlanningUnit) (day : AdTimeDay) (ctl : AdRtData) : Prop where
  push : pUnit.time.push
  budget : day.budget = 0 ∨ ctl.haveSpend.toInt < day.budget.toNat
  remain : 0 < ctl.advRemain.toInt
  planned : hourSet day.hour ctl.hour.toNat
  share : pUnit.order.bidmode ≠ 0 → 0 < day.budget →
    ctl.hourSpend.toInt < hourLeft day.budget day.hour ctl

/-- The slot of a plan for its weekday. -/
def slot (plan : Option (AdPlanningUnit × UInt32)) : Option AdTimeDay :=
  plan.bind fun added => dayOf added.1 added.2

/-- The current plan of an order affords to push it. -/
def Allows (plan : Option (AdPlanningUnit × UInt32)) (ctl : AdRtData) : Prop :=
  ∃ added ∈ plan, ∃ day ∈ dayOf added.1 added.2, Affords added.1 day ctl

/-- The update is done within the bounds, lets the order pass exactly when the plan affords it, and
holds no order of a plan that may be pushed for one that may not. -/
def Paced (plan : Option (AdPlanningUnit × UInt32)) (ctl : AdRtData) (result : Option Updated) :
    Prop :=
  ∃ updated, result = some updated ∧
    (∀ before ∈ updated.before, 0 ≤ before ∧ before < 2 ^ 32) ∧
    (updated.info.pushFlag = adRealTimeStateOk ↔ Allows plan ctl) ∧
    ∀ added ∈ plan, added.1.time.push → updated.info.pushFlag ≠ adRealTimeStateNoRange

/-- The entry stops a message nowhere before the spend of the hour is looked at. -/
structure Passes (sInfo : AdRealTimeInfo) (ctl : AdRtData) : Prop where
  range : sInfo.pushFlag ≠ adRealTimeStateNoRange
  budget : sInfo.willSpend = 0 ∨ ctl.haveSpend.toInt < sInfo.willSpend.toNat
  remain : 0 < ctl.advRemain.toInt
  planned : hourSet sInfo.advsTime ctl.hour.toNat

/-- When the update keeps to the plan. The last two are about a message that gets as far as to the
spend of the hour: with a slot for the weekday it is not negative where the hour is shared; without
one, the slot that an earlier plan has left in the entry does not let it pass. -/
structure Orderly (plan : Option (AdPlanningUnit × UInt32)) (sInfo : AdRealTimeInfo)
    (ctl : AdRtData) : Prop where
  hour : ctl.hour.toNat < adDayHours
  range : sInfo.pushFlag = adRealTimeStateNoRange → ∀ added ∈ plan, added.1.time.push = false
  before : Passes sInfo ctl → 0 ≤ spendBefore ctl ∧ spendBefore ctl < 2 ^ 32
  named : Passes sInfo ctl → slot plan ≠ none → sInfo.hourShare → 0 < sInfo.willSpend →
    0 ≤ ctl.hourSpend.toInt
  stale : Passes sInfo ctl → slot plan = none → sInfo.hourShare ∧ 0 < sInfo.willSpend ∧
    (0 ≤ ctl.hourSpend.toInt →
      hourLeft sInfo.willSpend sInfo.advsTime ctl ≤ ctl.hourSpend.toInt)

/-- What an entry has of the plan its order was added with. -/
structure Planned (plan : Option (AdPlanningUnit × UInt32)) (sInfo : AdRealTimeInfo) : Prop where
  bounded : Bounded sInfo
  unplanned : plan = none → sInfo.advsTime = 0 ∧ sInfo.pushFlag ≠ adRealTimeStateNoRange
  share : ∀ added ∈ plan, sInfo.hourShare = decide (added.1.order.bidmode ≠ 0)
  push : ∀ added ∈ plan, added.1.time.push = false → sInfo.pushFlag = adRealTimeStateNoRange
  day : ∀ day ∈ slot plan, sInfo.willSpend = day.budget ∧ sInfo.advsTime = day.hour

variable {plan : Option (AdPlanningUnit × UInt32)} {sInfo : AdRealTimeInfo}
  {pUnit : AdPlanningUnit} {uiWeek : UInt32} {now : Int} {ctl : AdRtData}
  {hour : Fin adDayHours}

theorem fresh_planned : Planned none {} where
  bounded hour := by simp
  unplanned _ := ⟨rfl, by decide⟩
  share _ added := by cases added
  push _ added := by cases added
  day _ found := by cases found

theorem Planned.addData (planned : Planned plan sInfo) :
    Planned (some (pUnit, uiWeek)) (sInfo.addData pUnit uiWeek) := by
  obtain ⟨flag, share, clock, -⟩ := addData_pushFlag sInfo pUnit uiWeek
  constructor
  · intro hour
    rw [clock]
    exact planned.bounded hour
  · intro none
    cases none
  · rintro _ ⟨⟩
    exact share
  · rintro _ ⟨⟩ unpushed
    rw [flag, unpushed]
    rfl
  · intro day found
    exact addData_day found

theorem stored_range : ((sInfo.store now ctl hour).control ctl hour).info.pushFlag =
    adRealTimeStateNoRange ↔ sInfo.pushFlag = adRealTimeStateNoRange :=
  control_range.trans Iff.rfl

theorem Planned.update (planned : Planned plan sInfo) :
    Planned plan ((sInfo.store now ctl hour).control ctl hour).info := by
  obtain ⟨willSpend, advsTime, hourShare⟩ :
      SamePlan (sInfo.store now ctl hour) ((sInfo.store now ctl hour).control ctl hour).info :=
    control_samePlan
  constructor
  · exact control_bounded (store_bounded planned.bounded)
  · intro none
    obtain ⟨hours, leave⟩ := planned.unplanned none
    exact ⟨advsTime.trans hours, fun flag => leave (stored_range.mp flag)⟩
  · intro added found
    exact hourShare.trans (planned.share added found)
  · intro added found unpushed
    exact stored_range.mpr (planned.push added found unpushed)
  · intro day found
    obtain ⟨budget, hours⟩ := planned.day day found
    exact ⟨willSpend.trans budget, advsTime.trans hours⟩

/-- In a run every entry holds its plan, also one that a lookup would create. -/
def Held (s : Control) : Prop :=
  ∀ executeId, Planned (s.plan executeId) (s.filter.entry executeId)

theorem entry_insert {f : AdFilterRealTime} {executeId other : UInt32} :
    ({ f with info := f.info.insert executeId sInfo } : AdFilterRealTime).entry other =
      if other = executeId then sInfo else f.entry other := by
  unfold AdFilterRealTime.entry
  rw [TreeMap.getElem?_insert]
  by_cases this : other = executeId
  · simp [this]
  · rw [if_neg (by simpa using Ne.symm this), if_neg this]

theorem step_held (event : ControlEvent) (s after : Control) (held : Held s)
    (stepped : step event s = some after) : Held after := by
  cases event with
  | beginAdd pUnit uiWeek =>
    rw [step] at stepped
    split at stepped
    · cases stepped
    obtain rfl := Option.some.inj stepped
    intro executeId
    by_cases sameDay : uiWeek = s.filter.lastDay
    · simpa [AdFilterRealTime.beginDay, sameDay] using held executeId
    · simpa [AdFilterRealTime.beginDay, AdFilterRealTime.adFilterClear, AdFilterRealTime.entry,
        sameDay] using fresh_planned
  | enter =>
    obtain ⟨⟨pUnit, uiWeek⟩, -, rfl⟩ := Option.map_eq_some_iff.mp stepped
    intro executeId
    simp only [AdFilterRealTime.enter, entry_insert, Function.update_apply]
    split
    · next same => exact (held pUnit.order.executeId).addData
    · exact held executeId
  | datagram parsed unset now =>
    simp only [step, Option.bind_eq_bind, Option.bind_eq_some_iff] at stepped
    obtain ⟨ctl, -, ⟨f, updated⟩, update, stepped⟩ := stepped
    obtain rfl := Option.some.inj stepped
    obtain ⟨hour, -, rfl, rfl⟩ := update_some update
    intro executeId
    simp only [entry_insert]
    split
    · next same =>
      rw [same]
      exact (held ctl.executeId).update
    · exact held executeId
  | visit mResult =>
    obtain rfl := Option.some.inj stepped
    exact held

theorem fresh_held : Held {} := by
  intro executeId
  have none : AdFilterRealTime.entry {} executeId = {} := by simp [AdFilterRealTime.entry]
  rw [none]
  exact fresh_planned

theorem hourSpend_toNat (spend : Int64) : (spend.toUInt64.toNat : Int) =
    if 0 ≤ spend.toInt then spend.toInt else spend.toInt + 2 ^ 64 := by
  have value := BitVec.toInt_eq_toNat_cond spend.toBitVec
  have word : spend.toBitVec.toNat = spend.toUInt64.toNat := rfl
  have signed : spend.toBitVec.toInt = spend.toInt := rfl
  have low := spend.toUInt64.toNat_lt
  split <;> omega

/-- A negative spend is below what is left for the hour. -/
theorem neg_lt_hourLeft {budget hours : UInt32} (some' : 0 < hoursLeft hours ctl.hour.toNat)
    (below : ctl.haveSpend.toInt < budget.toNat) (negative : ctl.hourSpend.toInt < 0) :
    ctl.hourSpend.toInt < hourLeft budget hours ctl := by
  rw [hourLeft, ← Int.add_one_le_iff, Int.le_ediv_iff_mul_le (by omega), spendBefore]
  nlinarith

/-- The hour is not used up exactly where its spend is not negative and below the hour's share. -/
theorem number_lt_total_iff (bounded : Bounded sInfo) (sameHour : hour = ctl.hour.toNat)
    (planned : hourSet sInfo.advsTime hour) (below : ctl.haveSpend.toInt < sInfo.willSpend.toNat)
    (lower : 0 ≤ spendBefore ctl) (upper : spendBefore ctl < 2 ^ 32) :
    ctl.hourSpend.toUInt64 <
        sInfo.hourTotal hour (UInt32.ofNat (toUInt32 (spendBefore ctl))) ↔
      0 ≤ ctl.hourSpend.toInt ∧
        ctl.hourSpend.toInt < hourLeft sInfo.willSpend sInfo.advsTime ctl := by
  obtain ⟨before, exact'⟩ := Int.eq_ofNat_of_zero_le lower
  rw [hourLeft, ← sameHour]
  rw [exact'] at upper ⊢
  rw [spendBefore] at exact'
  have cut : toUInt32 before = before := by
    unfold toUInt32
    omega
  rw [cut]
  have word : (UInt32.ofNat before).toNat = before :=
    UInt32.toNat_ofNat_of_lt' (by rw [UInt32.size]; omega)
  have number := hourSpend_toNat ctl.hourSpend
  have low := ctl.hourSpend.le_toInt
  have bound : (sInfo.hourTotal hour (UInt32.ofNat before)).toNat < 2 ^ 32 := hourTotal_lt bounded
  rw [UInt64.lt_iff_toNat_lt]
  by_cases left : UInt32.ofNat before < sInfo.willSpend
  · have total := hourTotal_toNat left planned
    rw [UInt32.lt_iff_toNat_lt, word] at left
    rw [word] at total
    have share : ((sInfo.hourTotal hour (UInt32.ofNat before)).toNat : Int) =
        ((sInfo.willSpend.toNat : Int) - before) / (hoursLeft sInfo.advsTime hour : Int) := by
      rw [total, Int.natCast_ediv, Nat.cast_sub left.le]
    rw [← share]
    split at number <;> omega
  · -- nothing is left, so the spend of the hour is negative and its word is above every total
    rw [UInt32.lt_iff_toNat_lt, word] at left
    rw [if_neg (by omega)] at number
    exact iff_of_false (by omega) (by omega)

theorem reaches_store (sameHour : hour = ctl.hour.toNat) :
    Reaches (sInfo.store now ctl hour) hour ↔ Passes sInfo ctl := by
  constructor
  · rintro ⟨range, budget, remain, planned⟩
    exact ⟨range, budget, remain, sameHour ▸ planned⟩
  · rintro ⟨range, budget, remain, planned⟩
    exact ⟨range, budget, remain, sameHour ▸ planned⟩

/-- A message that does not get to the spend of its hour finds an order that may not be pushed. -/
theorem stopped_state (now : Int) (sameHour : hour = ctl.hour.toNat) (stopped : ¬Passes sInfo ctl) :
    ((sInfo.store now ctl hour).control ctl hour).before = none ∧
      ((sInfo.store now ctl hour).control ctl hour).info.pushFlag ≠ adRealTimeStateOk := by
  rcases control_cases (sInfo.store now ctl hour) ctl hour with
    ⟨-, before, flag⟩ | ⟨-, -, before, flag⟩ | ⟨reaches, -⟩
  · rw [flag]
    exact ⟨before, by decide⟩
  · refine ⟨before, fun ok => ?_⟩
    rw [ok] at flag
    exact absurd flag (by decide)
  · exact absurd ((reaches_store sameHour).mp reaches) stopped

/-- The state after a message that gets to the spend of its hour. -/
theorem Passes.state (passes : Passes sInfo ctl) (now : Int)
    (sameHour : hour = ctl.hour.toNat) (bounded : Bounded sInfo) :
    ((sInfo.store now ctl hour).control ctl hour).before = some (spendBefore ctl) ∧
      (0 ≤ spendBefore ctl → spendBefore ctl < 2 ^ 32 →
        (((sInfo.store now ctl hour).control ctl hour).info.pushFlag = adRealTimeStateOk ↔
          (sInfo.hourShare → 0 < sInfo.willSpend → 0 ≤ ctl.hourSpend.toInt ∧
            ctl.hourSpend.toInt < hourLeft sInfo.willSpend sInfo.advsTime ctl))) := by
  have reaches : Reaches (sInfo.store now ctl hour) hour := (reaches_store sameHour).mpr passes
  rcases control_cases (sInfo.store now ctl hour) ctl hour with
    ⟨range, -⟩ | ⟨-, stopped, -⟩ | ⟨-, before, flag⟩
  · exact absurd range passes.range
  · exact absurd reaches stopped
  refine ⟨before, fun lower upper => ?_⟩
  rw [hourTotal_store, store_clock] at flag
  rw [flag]
  change (if 0 < sInfo.willSpend ∧ sInfo.hourShare ∧ sInfo.hourTotal hour
    (UInt32.ofNat (toUInt32 (spendBefore ctl))) ≤ ctl.hourSpend.toUInt64 then _ else _) = _ ↔ _
  split
  · next full =>
    obtain ⟨budget, shared, usedUp⟩ := full
    refine iff_of_false (by decide) fun left => ?_
    rcases passes.budget with free | below
    · exact UInt32.pos_iff_ne_zero.mp budget free
    · have fits := (number_lt_total_iff bounded sameHour reaches.planned below lower upper).mpr
        (left shared budget)
      rw [UInt64.lt_iff_toNat_lt] at fits
      rw [UInt64.le_iff_toNat_le] at usedUp
      omega
  · next open' =>
    refine iff_of_true rfl fun shared budget => ?_
    rcases passes.budget with free | below
    · exact absurd free (UInt32.pos_iff_ne_zero.mp budget)
    · apply (number_lt_total_iff bounded sameHour reaches.planned below lower upper).mp
      rw [UInt64.lt_iff_toNat_lt]
      rw [not_and, not_and, UInt64.le_iff_toNat_le] at open'
      exact Nat.lt_of_not_le (open' budget shared)

theorem Planned.pushed (planned : Planned plan sInfo)
    (leave : sInfo.pushFlag ≠ adRealTimeStateNoRange) : ∀ added ∈ plan, added.1.time.push := by
  intro added found
  cases push : added.1.time.push with
  | true => rfl
  | false => exact absurd (planned.push added found push) leave

/-- A message that the plan affords gets to the spend of its hour. -/
theorem Planned.passes (planned : Planned plan sInfo)
    (leave : sInfo.pushFlag ≠ adRealTimeStateNoRange) (allows : Allows plan ctl) :
    Passes sInfo ctl := by
  obtain ⟨added, rfl, day, named, affords⟩ := allows
  obtain ⟨budget, hours⟩ := planned.day day named
  constructor
  · exact leave
  · rw [budget]
    exact affords.budget
  · exact affords.remain
  · rw [hours]
    exact affords.planned

/-- For a message that gets to the spend of its hour only the share is left to look at. -/
theorem Planned.allows_iff (planned : Planned plan sInfo) (passes : Passes sInfo ctl)
    (named : slot plan ≠ none) : Allows plan ctl ↔
      (sInfo.hourShare → 0 < sInfo.willSpend →
        ctl.hourSpend.toInt < hourLeft sInfo.willSpend sInfo.advsTime ctl) := by
  obtain ⟨day, found⟩ := Option.ne_none_iff_exists'.mp named
  obtain ⟨added, rfl, here⟩ := Option.bind_eq_some_iff.mp found
  obtain ⟨budget, hours⟩ := planned.day day found
  have share : sInfo.hourShare = true ↔ added.1.order.bidmode ≠ 0 := by
    rw [planned.share added rfl, decide_eq_true_eq]
  rw [share, budget, hours]
  constructor
  · rintro ⟨_, ⟨⟩, day', also, affords⟩
    obtain rfl := Option.some.inj (here.symm.trans also)
    exact affords.share
  · intro left
    have pushed := planned.pushed passes.range added rfl
    exact ⟨added, rfl, day, here, pushed, budget ▸ passes.budget, passes.remain,
      hours ▸ passes.planned, left⟩

theorem not_allows (unnamed : slot plan = none) : ¬Allows plan ctl := by
  rintro ⟨added, rfl, day, named, -⟩
  exact absurd (unnamed.symm.trans named) (by simp)

/-- A message that does not get to the spend of its hour leaves an order without leave as it is. -/
theorem Planned.stopped_iff (planned : Planned plan sInfo) (sameHour : hour = ctl.hour.toNat)
    (stopped : ¬Passes sInfo ctl) :
    Paced plan ctl (some ((sInfo.store now ctl hour).control ctl hour)) ↔
      (sInfo.pushFlag = adRealTimeStateNoRange →
        ∀ added ∈ plan, added.1.time.push = false) := by
  obtain ⟨before, notOk⟩ := stopped_state now sameHour stopped
  constructor
  · rintro ⟨_, ⟨⟩, -, -, leave⟩ range added found
    by_contra pushed
    exact leave added found (by simpa using pushed) (stored_range.mpr range)
  · intro unpushed
    refine ⟨_, rfl, by simp [before], iff_of_false notOk fun allows => ?_, ?_⟩
    · by_cases range : sInfo.pushFlag = adRealTimeStateNoRange
      · obtain ⟨added, found, day, -, affords⟩ := allows
        exact absurd affords.push (by simp [unpushed range added found])
      · exact stopped (planned.passes range allows)
    · intro added found pushed flag
      exact absurd pushed (by simp [unpushed (stored_range.mp flag) added found])

/-- A message that gets to the spend of its hour. -/
theorem Planned.passes_iff (planned : Planned plan sInfo) (sameHour : hour = ctl.hour.toNat)
    (passes : Passes sInfo ctl) :
    Paced plan ctl (some ((sInfo.store now ctl hour).control ctl hour)) ↔
      (0 ≤ spendBefore ctl ∧ spendBefore ctl < 2 ^ 32) ∧
        (slot plan ≠ none → sInfo.hourShare → 0 < sInfo.willSpend → 0 ≤ ctl.hourSpend.toInt) ∧
        (slot plan = none → sInfo.hourShare ∧ 0 < sInfo.willSpend ∧
          (0 ≤ ctl.hourSpend.toInt →
            hourLeft sInfo.willSpend sInfo.advsTime ctl ≤ ctl.hourSpend.toInt)) := by
  obtain ⟨before, state⟩ := passes.state now sameHour planned.bounded
  have leave : ((sInfo.store now ctl hour).control ctl hour).info.pushFlag ≠
      adRealTimeStateNoRange := stored_range.not.mpr passes.range
  have some' : 0 < hoursLeft sInfo.advsTime ctl.hour.toNat :=
    sameHour ▸ hoursLeft_pos (sameHour ▸ passes.planned)
  have below : 0 < sInfo.willSpend → ctl.haveSpend.toInt < sInfo.willSpend.toNat := by
    intro budget
    rcases passes.budget with free | below
    · exact absurd free (UInt32.pos_iff_ne_zero.mp budget)
    · exact below
  constructor
  · rintro ⟨_, ⟨⟩, bounds, decides, -⟩
    have bounds := bounds _ before
    rw [state bounds.1 bounds.2] at decides
    refine ⟨bounds, fun named share budget => ?_, fun unnamed => ?_⟩
    · rw [planned.allows_iff passes named] at decides
      by_contra negative
      have above := neg_lt_hourLeft some' (below budget) (Int.not_le.mp negative)
      exact negative (decides.mpr (fun _ _ => above) share budget).1
    · have refused := mt decides.mp (not_allows unnamed)
      simp only [not_forall, not_and, Int.not_lt] at refused
      obtain ⟨share, budget, full⟩ := refused
      exact ⟨share, budget, full⟩
  · rintro ⟨bounds, shared, stale⟩
    refine ⟨_, rfl, ?_, ?_, fun _ _ _ => leave⟩
    · intro spend computed
      obtain rfl := Option.some.inj (before.symm.trans computed)
      exact bounds
    rw [state bounds.1 bounds.2]
    by_cases unnamed : slot plan = none
    · refine iff_of_false (fun left => ?_) (not_allows unnamed)
      obtain ⟨share, budget, full⟩ := stale unnamed
      obtain ⟨nonneg, less⟩ := left share budget
      exact absurd less (Int.not_lt.mpr (full nonneg))
    · rw [planned.allows_iff passes unnamed]
      constructor
      · exact fun left share budget => (left share budget).2
      · exact fun left share budget => ⟨shared unnamed share budget, left share budget⟩

theorem Planned.update_iff (planned : Planned plan sInfo) :
    Paced plan ctl (sInfo.adFilterRealTimeUpdate now ctl) ↔ Orderly plan sInfo ctl := by
  unfold AdRealTimeInfo.adFilterRealTimeUpdate
  by_cases inside : ctl.hour.toNat < adDayHours
  · rw [dif_pos inside]
    by_cases passes : Passes sInfo ctl
    · rw [planned.passes_iff rfl passes]
      constructor
      · rintro ⟨before, named, stale⟩
        exact ⟨inside, fun range => absurd range passes.range, fun _ => before, fun _ => named,
          fun _ => stale⟩
      · intro orderly
        exact ⟨orderly.before passes, orderly.named passes, orderly.stale passes⟩
    · rw [planned.stopped_iff rfl passes]
      constructor
      · intro unpushed
        exact ⟨inside, unpushed, fun stopped => absurd stopped passes,
          fun stopped => absurd stopped passes, fun stopped => absurd stopped passes⟩
      · exact Orderly.range
  · rw [dif_neg inside]
    constructor
    · rintro ⟨updated, none, -⟩
      cases none
    · intro orderly
      exact absurd orderly.hour inside

/-- In every state of a run a control message is weighed against the current plan of its order
exactly when it is orderly. -/
theorem paced_iff (events : List ControlEvent) :
    ∀ s ∈ StepRuns.states step {} events, ∀ now ctl,
      Paced (s.plan ctl.executeId) ctl
          ((s.filter.entry ctl.executeId).adFilterRealTimeUpdate now ctl) ↔
        Orderly (s.plan ctl.executeId) (s.filter.entry ctl.executeId) ctl := by
  intro s reached now ctl
  have held := StepRuns.states_keep step_held fresh_held events s reached
  exact (held ctl.executeId).update_iff

/-- An order with a budget of 100 that is shared among ten and eleven o'clock on Mondays. -/
def sharedOrder : AdPlanningUnit where
  order := { executeId := 1, bidmode := 1 }
  time := { push := true, day := [⟨1, 100, 3072⟩] }

/-- At ten o'clock 20 are spent, 10 of them in this hour. -/
def sharedData : AdRtData := { noData with
  executeId := 1
  hour := 10
  advRemain := 5
  haveSpend := 20
  hourSpend := 10 }

def addShared : List ControlEvent := [.beginAdd sharedOrder 1, .enter]

def shared : Control := (addShared.foldlM (fun s event => step event s) {}).getD {}

theorem shared_paced :
    Paced (shared.plan 1) sharedData
      ((shared.filter.entry 1).adFilterRealTimeUpdate 0 sharedData) := by
  refine (paced_iff addShared shared (.tail _ (.tail _ (.head _))) 0 sharedData).mpr ?_
  constructor
  · decide
  · intro range
    exact absurd range (by decide +kernel)
  · exact fun _ => by decide
  · exact fun _ _ _ _ => by decide
  · intro _ unnamed
    cases unnamed

/-- An order without a day to be pushed on, which gets one afterwards. -/
def regained : List ControlEvent :=
  [.beginAdd { mondayOrder 1 with time := {} } 1, .enter, .beginAdd (mondayOrder 1) 1, .enter]

/-- The order is still held as one without a day. -/
theorem regained_held : ¬ ∀ s ∈ StepRuns.states step {} regained, ∀ now ctl,
    Paced (s.plan ctl.executeId) ctl
      ((s.filter.entry ctl.executeId).adFilterRealTimeUpdate now ctl) := by
  intro all
  obtain ⟨updated, result, -, -, leave⟩ :=
    all _ (.tail _ (.tail _ (.tail _ (.tail _ (.head _))))) 0 sharedData
  have flag : updated.info.pushFlag = adRealTimeStateNoRange := by
    rw [← Option.some.inj result]
    rfl
  exact leave (mondayOrder 1, 1) rfl rfl flag

end PacingDecision
