import RtbAdapter.PlanningData
import RtbAdapter.RtbFilters

/-!
# The engine

`AdRtbEngineUpdate` reads the orders, their prices and their banned places, looks
at the configuration and builds new filters over the visible orders. Each stage
may end the call. The files, the answers of redis and whatever else the outcome of
a stage depends on are arbitrary.
-/

namespace RtbEngine

open ByteWords CText JsonValues PingPong PlanningUnit PlanningData FilterTables RtbFilters Std
open NetProtocol (adSuccess adFailure)

def adRtbEngineReinit : Int := 0x44

/-- The files whose change the code asks about by name. -/
inductive CheckedFile where
  | config | tanxContent | tanxDescription | other
  deriving DecidableEq

/-- What one update depends on: the answers of redis, the files that `Check` finds changed,
the outcome of loading the model files, what the two files of the Tanx filter hold when they
can be read, and whether the task of the real time filter starts. -/
structure UpdateWorld where
  calendar : Calendar
  redis : Redis
  changed : List CheckedFile
  dealRank : Bool
  tanx : Option (AdMap AdTanxDescription)
  realTime : Bool

/-- The filters are kept in two vectors, which are empty (`none`) in the beginning. -/
structure AdRtbEngine where
  data : AdPlanningData
  filters : AdPingPongBuffer (Option Filters)

def AdRtbEngine.fresh : AdRtbEngine := ⟨.fresh, ⟨none, none, false⟩⟩

variable (parse : Bytes → Option JsonValue) (world : UpdateWorld)

/-- The Tanx filter reads its files when one has changed, and else takes over what the filter
in use has read. Following the pointers of an empty vector ends the process. -/
def tanxInit (now : Option Filters) (back : Filters) : Option (Int × Filters) :=
  if .tanxContent ∈ world.changed ∨ .tanxDescription ∈ world.changed then
    match world.tanx with
    | some descriptions => some (adSuccess, { back with descriptions })
    | none => some (adFailure, back)
  else now.map fun now => (adSuccess, { back with descriptions := now.descriptions })

/-- `FiltersInit` -/
def filtersInit (now : Option Filters) (back : Filters) : Option (Int × Filters) := do
  let (ret, back) ← tanxInit world now back
  if ret ≠ adSuccess then return (adFailure, back)
  if now.isNone && !world.realTime then return (adFailure, back)
  -- the frequency and the mark filter copy from the filters in use when no file has changed
  if world.changed = [] && now.isNone then none
  return (adSuccess, back)

/-- `FiltersUpdate`, over the orders in the order of their execution ids. -/
def filtersUpdate (orders : OrderMap) (filters : AdPingPongBuffer (Option Filters)) :
    Option (Int × AdPingPongBuffer (Option Filters)) := do
  let (ret, back) ← filtersInit world filters.get (build (orders.toList.map Prod.snd))
  let filters := filters.setBack (some back)
  if ret ≠ adSuccess then return (ret, filters)
  return (adSuccess, filters.switch)

/-- The last stage, after the data has been read: the configuration and the filters. -/
def AdRtbEngine.filtersStage (e : AdRtbEngine) : Option (Int × AdRtbEngine) :=
  if world.changed ≠ [] ∧ .config ∈ world.changed then some (adRtbEngineReinit, e)
  else if world.changed ≠ [] ∧ !world.dealRank then some (adFailure, e)
  else do
    let (ret, filters) ← filtersUpdate world e.data.data.get e.filters
    return (ret, { e with filters })

/-- The stage of the banned places, and the last one. -/
def AdRtbEngine.placesStage (e : AdRtbEngine) : Option (Int × AdRtbEngine) :=
  let (ret, data) := e.data.dataUpdateAdvancedFilterResult world.redis
  let e := { e with data }
  if ret ≠ adSuccess then some (ret, e) else e.filtersStage world

def AdRtbEngine.adRtbEngineUpdate (e : AdRtbEngine) : Option (Int × AdRtbEngine) := do
  let u ← e.data.dataUpdate parse world.calendar world.redis
  let e := { e with data := u.state }
  if u.ret ≠ adSuccess then return (u.ret, e)
  else if u.size ≠ 0 then
    let (ret, data) ← e.data.dataUpdateAdvancedPriceData parse world.redis
    let e := { e with data }
    if ret ≠ adSuccess then return (ret, e) else e.placesStage world
  else e.placesStage world

/-- One step of a run of updates. -/
def update (e : AdRtbEngine) : Option AdRtbEngine :=
  (e.adRtbEngineUpdate parse world).map Prod.snd

def addresses (map : OrderMap) : List Nat := map.toList.map fun entry => entry.2.address

/-- The orders that the filters in use point to. -/
def AdRtbEngine.references (e : AdRtbEngine) : List Nat :=
  (e.filters.get.map Filters.references).getD []

/-- The orders that are not deleted: those in one of the two maps. -/
def AdRtbEngine.live (e : AdRtbEngine) : List Nat :=
  addresses e.data.data.get ++ addresses e.data.data.getBack

end RtbEngine
