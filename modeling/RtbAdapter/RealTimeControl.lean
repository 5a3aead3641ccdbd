import Std.Data.TreeMap.Lemmas
import RtbAdapter.FilterTables
import RtbAdapter.RealTimeInfo
import RtbAdapter.StepRuns

/-!
# Budget control over a run

Orders are added one by one, in two steps: the table may be emptied before the entry
is written. Control messages and matches come in between. An order with an entry
passes on a recent message that lets it, one without an entry passes anyway.
-/

namespace RealTimeControl

open ByteWords JsonValues PlanningUnit RealTimeInfo Std

structure AdFilterRealTime where
  info : TreeMap UInt32 AdRealTimeInfo := ∅
  lastDay : UInt32 := 0

namespace AdFilterRealTime

variable (f : AdFilterRealTime) (pUnit : AdPlanningUnit) (uiWeek : UInt32)

/-- `operator[]` of the table. -/
def entry (executeId : UInt32) : AdRealTimeInfo := (f.info[executeId]?).getD {}

def adFilterClear : AdFilterRealTime := { f with info := ∅ }

/-- `AddData` up to the lock: on another weekday the table is emptied. -/
def beginDay : AdFilterRealTime :=
  if uiWeek ≠ f.lastDay then { f.adFilterClear with lastDay := uiWeek } else f

/-- `AddData` under the lock. -/
def enter : AdFilterRealTime :=
  let executeId := pUnit.order.executeId
  { f with info := f.info.insert executeId ((f.entry executeId).addData pUnit uiWeek) }

def adFilterRealTimeUpdate (now : Int) (ctl : AdRtData) :
    Option (AdFilterRealTime × AdRealTimeInfo.Updated) :=
  ((f.entry ctl.executeId).adFilterRealTimeUpdate now ctl).map fun updated =>
    ({ f with info := f.info.insert ctl.executeId updated.info }, updated)

/-- An order passes at a moment. -/
def keeps (executeId : UInt32) (ulTime : Int) : Bool :=
  match f.info[executeId]? with
  | some sInfo =>
    !(adRealTimeUsingTime < ulTime - sInfo.time || sInfo.pushFlag ≠ adRealTimeStateOk)
  | none => true

/-- `match`, with the clock as it is read for each order. -/
def matchOrders (mResult : List (AdPlanningUnit × Int)) : List (AdPlanningUnit × Int) :=
  mResult.filter fun candidate => f.keeps candidate.1.order.executeId candidate.2

end AdFilterRealTime

/-- The filter as `FiltersMatch` sees it, by what it reads of its table. -/
theorem keeps_eq_realTimeKeeps (f : AdFilterRealTime) (unit : Nat → AdPlanningUnit) (second : Int)
    (entry : Nat × FilterTables.AdRtbFilterResult) :
    FilterTables.realTimeKeeps unit
        (fun executeId => (f.info[executeId]?).map fun sInfo => ⟨sInfo.pushFlag, sInfo.time⟩)
        second entry =
      f.keeps (unit entry.1).order.executeId second := by
  have sameTime : FilterTables.adRealTimeUsingTime = adRealTimeUsingTime := rfl
  have sameFlag : FilterTables.adRealTimeStateOk = adRealTimeStateOk := rfl
  unfold FilterTables.realTimeKeeps AdFilterRealTime.keeps FilterTables.execId
  cases found : f.info[(unit entry.1).order.executeId]? with
  | none => simp [found]
  | some sInfo =>
    rw [Bool.eq_iff_iff]
    simp [found, sameTime, sameFlag]

/-- A control message and the state that was computed from it. -/
structure Received where
  time : Int
  state : UInt32

/-- The filter, the order whose `AddData` is under way, and beside it the plan each order
has been added with since the table was emptied, its last message, and what passed a match
that was just made. -/
structure Control where
  filter : AdFilterRealTime := {}
  adding : Option (AdPlanningUnit × UInt32) := none
  plan : UInt32 → Option (AdPlanningUnit × UInt32) := fun _ => none
  received : UInt32 → Option Received := fun _ => none
  survivors : List (AdPlanningUnit × Int) := []

inductive ControlEvent where
  | beginAdd (pUnit : AdPlanningUnit) (uiWeek : UInt32)
  | enter
  | datagram (parsed : Option JsonValue) (unset : AdRtData) (now : Int)
  | visit (mResult : List (AdPlanningUnit × Int))

/-- Orders are added one at a time. A datagram that the JSON library fails on, or whose hour is
out of bounds, ends the run. -/
def step : ControlEvent → Control → Option Control
  | .beginAdd pUnit uiWeek, s =>
    match s.adding with
    | some _ => none
    | none => some { s with
        filter := s.filter.beginDay uiWeek
        adding := some (pUnit, uiWeek)
        plan := if uiWeek ≠ s.filter.lastDay then fun _ => none else s.plan
        survivors := [] }
  | .enter, s => s.adding.map fun (pUnit, uiWeek) =>
    { s with
      filter := s.filter.enter pUnit uiWeek
      adding := none
      plan := Function.update s.plan pUnit.order.executeId (some (pUnit, uiWeek))
      survivors := [] }
  | .datagram parsed unset now, s => do
    let ctl ← adFilterPushData parsed unset
    let (filter, updated) ← s.filter.adFilterRealTimeUpdate now ctl
    return { s with
      filter
      received := match orderOf parsed with
        | some executeId =>
          Function.update s.received executeId (some ⟨now, updated.info.pushFlag⟩)
        | none => s.received
      survivors := [] }
  | .visit mResult, s => some { s with survivors := s.filter.matchOrders mResult }

/-- An order that passed had a message at most 30 seconds before, which lets it pass. -/
def Allowed (s : Control) : Prop :=
  ∀ candidate ∈ s.survivors, ∃ message, s.received candidate.1.order.executeId = some message ∧
    candidate.2 - message.time ≤ adRealTimeUsingTime ∧ message.state = adRealTimeStateOk

/-- A match is only made over orders with an entry, and a datagram is about an order. -/
def Filed : ControlEvent → Control → Prop
  | .visit mResult, s => ∀ candidate ∈ mResult, candidate.1.order.executeId ∈ s.filter.info
  | .datagram parsed .., _ => (orderOf parsed).isSome
  | _, _ => True

instance decidableFiled : (event : ControlEvent) → (s : Control) → Decidable (Filed event s)
  | .visit mResult, s =>
    inferInstanceAs (Decidable (∀ candidate ∈ mResult, candidate.1.order.executeId ∈ s.filter.info))
  | .datagram parsed .., _ => inferInstanceAs (Decidable ((orderOf parsed).isSome = true))
  | .beginAdd .., _ | .enter, _ => .isTrue trivial

/-- An entry that lets its order pass has this from the last message of the order. -/
def Told (f : AdFilterRealTime) (received : UInt32 → Option Received) : Prop :=
  ∀ executeId sInfo, f.info[executeId]? = some sInfo → sInfo.pushFlag = adRealTimeStateOk →
    received executeId = some ⟨sInfo.time, adRealTimeStateOk⟩

variable {f : AdFilterRealTime} {received : UInt32 → Option Received} {s after : Control}
  {pUnit : AdPlanningUnit} {uiWeek : UInt32} {now : Int} {ctl : AdRtData}
  {updated : AdRealTimeInfo.Updated}

theorem Told.beginDay (told : Told f received) : Told (f.beginDay uiWeek) received := by
  unfold AdFilterRealTime.beginDay
  split
  · intro executeId sInfo found
    simp [AdFilterRealTime.adFilterClear] at found
  · exact told

/-- An entry that a lookup creates lets nothing pass. -/
theorem entry_ok {executeId : UInt32} (ok : (f.entry executeId).pushFlag = adRealTimeStateOk) :
    f.info[executeId]? = some (f.entry executeId) := by
  unfold AdFilterRealTime.entry at *
  cases found : f.info[executeId]? with
  | none =>
    rw [found] at ok
    exact absurd ok (by decide)
  | some sInfo => rfl

theorem addData_ok {sInfo : AdRealTimeInfo}
    (ok : (sInfo.addData pUnit uiWeek).pushFlag = adRealTimeStateOk) :
    sInfo.pushFlag = adRealTimeStateOk ∧ (sInfo.addData pUnit uiWeek).time = sInfo.time := by
  obtain ⟨plan, -, -, time⟩ := AdRealTimeInfo.addData_pushFlag sInfo pUnit uiWeek
  rw [plan] at ok
  split at ok
  · exact ⟨ok, time⟩
  · exact absurd ok (by decide)

/-- A successful update is one for an hour of the day. -/
theorem update_some {f' : AdFilterRealTime}
    (stepped : f.adFilterRealTimeUpdate now ctl = some (f', updated)) :
    ∃ hour : Fin adDayHours, hour = ctl.hour.toNat ∧
      updated = ((f.entry ctl.executeId).store now ctl hour).control ctl hour ∧
      f' = { f with info := f.info.insert ctl.executeId updated.info } := by
  obtain ⟨found, entry, same⟩ := Option.map_eq_some_iff.mp stepped
  obtain ⟨rfl, rfl⟩ := Prod.mk.inj same
  unfold AdRealTimeInfo.adFilterRealTimeUpdate at entry
  split at entry
  · next inside => exact ⟨⟨_, inside⟩, rfl, (Option.some.inj entry).symm, rfl⟩
  · cases entry

theorem Told.enter (told : Told f received) : Told (f.enter pUnit uiWeek) received := by
  intro executeId sInfo found ok
  simp only [AdFilterRealTime.enter, TreeMap.getElem?_insert] at found
  split at found
  · next same =>
    obtain rfl := Std.compare_eq_iff_eq.mp same
    obtain rfl := Option.some.inj found
    obtain ⟨before, time⟩ := addData_ok ok
    rw [time]
    exact told _ _ (entry_ok before) before
  · exact told _ _ found ok

/-- A message is the last one of its order. -/
theorem Told.update (told : Told f received) {f' : AdFilterRealTime}
    (stepped : f.adFilterRealTimeUpdate now ctl = some (f', updated)) :
    Told f' (Function.update received ctl.executeId (some ⟨now, updated.info.pushFlag⟩)) := by
  obtain ⟨hour, -, same, rfl⟩ := update_some stepped
  have time : updated.info.time = now := by
    rw [same, AdRealTimeInfo.control_time]
    rfl
  intro executeId sInfo found ok
  by_cases this : executeId = ctl.executeId
  · subst this
    rw [TreeMap.getElem?_insert_self] at found
    obtain rfl := Option.some.inj found
    rw [Function.update_self, ok, time]
  · rw [TreeMap.getElem?_insert, if_neg (by simpa using Ne.symm this)] at found
    rw [Function.update_of_ne this]
    exact told executeId sInfo found ok

/-- An order with an entry that passes a match has been told so in time. -/
theorem Told.keeps (told : Told f received) {executeId : UInt32} (filed : executeId ∈ f.info)
    (kept : f.keeps executeId now) :
    ∃ message, received executeId = some message ∧ now - message.time ≤ adRealTimeUsingTime ∧
      message.state = adRealTimeStateOk := by
  have found := TreeMap.getElem?_eq_some_getElem filed
  simp only [AdFilterRealTime.keeps, found, Bool.not_eq_true', Bool.or_eq_false_iff,
    decide_eq_false_iff_not, Decidable.not_not] at kept
  obtain ⟨recent, ok⟩ := kept
  have inTime : now - f.info[executeId].time ≤ adRealTimeUsingTime := by omega
  exact ⟨_, told executeId _ found ok, inTime, rfl⟩

/-- An order without an entry passes at any moment. -/
theorem unfiled_keeps {executeId : UInt32} (unfiled : executeId ∉ f.info) (ulTime : Int) :
    f.keeps executeId ulTime := by
  rw [AdFilterRealTime.keeps, TreeMap.getElem?_eq_none unfiled]

structure Kept (s : Control) : Prop where
  told : Told s.filter s.received
  allowed : Allowed s

theorem step_kept (event : ControlEvent) (s after : Control) (kept : Kept s) (filed : Filed event s)
    (stepped : step event s = some after) : Kept after := by
  have nobody : ∀ t : Control, t.survivors = [] → Allowed t := by
    intro t none candidate inside
    rw [none] at inside
    cases inside
  cases event with
  | beginAdd pUnit uiWeek =>
    rw [step] at stepped
    split at stepped
    · cases stepped
    · obtain rfl := Option.some.inj stepped
      exact ⟨kept.told.beginDay, nobody _ rfl⟩
  | enter =>
    obtain ⟨added, -, rfl⟩ := Option.map_eq_some_iff.mp stepped
    exact ⟨kept.told.enter, nobody _ rfl⟩
  | datagram parsed unset now =>
    obtain ⟨executeId, named⟩ := Option.isSome_iff_exists.mp filed
    simp only [step, Option.bind_eq_bind, Option.bind_eq_some_iff] at stepped
    obtain ⟨ctl, pushed, ⟨f, updated⟩, update, stepped⟩ := stepped
    obtain rfl := Option.some.inj stepped
    have told := kept.told.update update
    rw [pushData_order named pushed] at told
    refine ⟨?_, nobody _ rfl⟩
    simp only [named]
    exact told
  | visit mResult =>
    obtain rfl := Option.some.inj stepped
    refine ⟨kept.told, fun candidate inside => ?_⟩
    obtain ⟨given, passed⟩ := List.mem_filter.mp inside
    exact kept.told.keeps (filed candidate given) passed

theorem fresh_kept : Kept {} where
  told := by
    intro executeId sInfo found
    simp at found
  allowed := by
    intro candidate inside
    cases inside

/-- Where matches are only made over orders with an entry, every order that passes one was let
pass by a message at most 30 seconds before. -/
theorem survivors_allowed {events : List ControlEvent}
    (filed : StepRuns.Throughout step Filed {} events) :
    ∀ s ∈ StepRuns.states step {} events, Allowed s := by
  intro s reached
  exact (StepRuns.states_keep_throughout step_kept fresh_kept filed s reached).allowed

/-- An order for ten o'clock on Mondays, without a budget of its own. -/
def mondayOrder (executeId : UInt32) : AdPlanningUnit where
  order := { executeId }
  time := { push := true, day := [⟨1, 0, 1024⟩] }

def tenText : JsonValue :=
  .object [(ascii "type", .string (ascii "1")), (ascii "eid", .string (ascii "1")),
    (ascii "adv", .string (ascii "7")), (ascii "hour", .string (ascii "10")),
    (ascii "show", .string (ascii "0")), (ascii "click", .string (ascii "0")),
    (ascii "advtoday", .string (ascii "0")), (ascii "advremain", .string (ascii "5")),
    (ascii "havespend", .string (ascii "0")), (ascii "hourspend", .string (ascii "0"))]

def noData : AdRtData := ⟨0, 0, 0, 0, 0, 0, 0, 0, 0⟩

/-- A message at second 100 and a match ten seconds later. -/
def toldInTime : List ControlEvent :=
  [.beginAdd (mondayOrder 1) 1, .enter, .datagram (some tenText) noData 100,
    .visit [(mondayOrder 1, 110)]]

def afterMatch : Control := (toldInTime.foldlM (fun s event => step event s) {}).getD {}

theorem toldInTime_filed : StepRuns.Throughout step Filed {} toldInTime := by decide +kernel

theorem afterMatch_allowed : afterMatch.survivors.length = 1 ∧ Allowed afterMatch :=
  ⟨by decide +kernel, survivors_allowed toldInTime_filed _
    (.tail _ (.tail _ (.tail _ (.tail _ (.head _)))))⟩

/-- Two orders are added on a Monday. On Tuesday the first one is added again, which empties the
table, and a match comes before the second one is. -/
def nextDay : List ControlEvent :=
  [.beginAdd (mondayOrder 1) 1, .enter, .beginAdd (mondayOrder 2) 1, .enter,
    .beginAdd (mondayOrder 1) 2, .enter, .visit [(mondayOrder 2, 0)]]

/-- No message has ever come, and the second order passes. -/
theorem nextDay_passes : ¬ ∀ s ∈ StepRuns.states step {} nextDay, Allowed s := by
  intro all
  have allowed := all _
    (.tail _ (.tail _ (.tail _ (.tail _ (.tail _ (.tail _ (.tail _ (.head _))))))))
  obtain ⟨message, received, -⟩ := allowed (mondayOrder 2, 0) (.head _)
  cases received

end RealTimeControl
