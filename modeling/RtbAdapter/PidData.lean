import Mathlib.Tactic
import Std.Data.TreeMap.Lemmas
import RtbAdapter.InverseMaps
import RtbAdapter.JsonValues
import RtbAdapter.NetProtocol
import RtbAdapter.PingPong
import RtbAdapter.StepRuns

/-!
# The pids of the exchange

An update reads every pid into the back half and switches. The result is the one of the
pid that was parsed last, and the timestamp that was read is not remembered.
-/

namespace PidData

open Std ByteWords CText InverseMaps JsonValues PingPong
open NetProtocol (adSuccess adFailure)

structure AdPid where
  mid : Int := adFailure
  pid : Bytes := []
  size : Bytes := []
  width : Int := adFailure
  height : Int := adFailure
  /-- A `FLOAT`, whose rounding nothing that is modelled looks at. -/
  bidFloor : Rat := 0
  pos : Int := adFailure
  class' : Bytes := []
  adType : Bytes := []
  page : Bytes := []
  keywords : Bytes := []
  cat : List Bytes := []
  banCat : List Bytes := []
  deriving DecidableEq

abbrev PidMap := TreeMap Bytes AdPid

/-- The size has to be two numbers with an x between them. -/
def readSize (value : JsonValue) (pid : AdPid) : Option (Int × AdPid) := do
  if ← value.isMember "size" then
    let size ← (← value.field "size").asString
    match strSplit size (ascii "x") with
    | [width, height] =>
      return (adSuccess, { pid with size, width := atoi width, height := atoi height })
    | _ => return (adFailure, { pid with size })
  else return (adSuccess, pid)

/-- The members of a pid, and whether the ones it needs are there. -/
def readPid (value : JsonValue) : Option (Int × AdPid) := do
  let mid ← value.optional "mid" adFailure JsonValue.asInt
  let pid ← value.optional "pid" [] JsonValue.asString
  let (sized, cPid) ← readSize value { mid, pid }
  let bidFloor ← value.optional "bidfloor" 0 JsonValue.asDouble
  let pos ← value.optional "pos" adFailure JsonValue.asInt
  let class' ← value.optional "class" [] JsonValue.asString
  let adType ← value.optional "type" [] JsonValue.asString
  let page ← value.optional "page" [] JsonValue.asString
  let keywords ← value.optional "keywords" [] JsonValue.asString
  let cat ← value.optional "cat" [] JsonValue.strings
  let banCat ← value.optional "ban" [] JsonValue.strings
  let iReturn := if mid ≤ 0 ∨ pid = [] ∨ sized = adFailure ∨ cPid.size = [] then adFailure
    else adSuccess
  return (iReturn, { cPid with bidFloor, pos, class', adType, page, keywords, cat, banCat })

variable (parse : Bytes → Option JsonValue)

/-- What a text says; a text that is no JSON says nothing. -/
def parseText (sData : Bytes) : Option (Int × AdPid) :=
  match parse (cStr sData) with
  | none => some (adFailure, {})
  | some value => readPid value

/-- `Parse`. -/
def parsePid (sData : Bytes) (cPids : PidMap) : Option (Int × PidMap) :=
  (parseText parse sData).map fun (iReturn, cPid) =>
    (iReturn, if iReturn = adFailure then cPids else cPids.insert cPid.pid cPid)

inductive RedisCall where
  | connect | timestamp | keys
  | get (index : Nat)
  deriving DecidableEq

/-- Which calls succeed during one update, and what redis answers them. -/
structure Redis where
  ok : RedisCall → Bool
  timestamp : Int
  keys : List Bytes
  value : Bytes → Bytes

structure AdData where
  pids : AdPingPongBuffer PidMap
  lastTimeStamp : Int

def AdData.fresh : AdData := ⟨⟨∅, ∅, false⟩, adFailure⟩

/-- The back half, how far the loop came, and the result that is carried along. -/
structure Loaded where
  ret : Int
  map : PidMap
  complete : Bool
  gets : List RedisCall

variable (redis : Redis)

def loadPids : List (Bytes × Nat) → Int → PidMap → Option Loaded
  | [], ret, cPids => some ⟨ret, cPids, true, []⟩
  | (key, index) :: keys, _, cPids =>
    if redis.ok (.get index) then do
      let (ret, cPids) ← parsePid parse (redis.value key) cPids
      let loaded ← loadPids keys ret cPids
      return { loaded with gets := .get index :: loaded.gets }
    else some ⟨adFailure, cPids, false, [.get index]⟩

/-- What a call returns, the calls to redis that it made, and the state it leaves. -/
structure Updated where
  ret : Int
  calls : List RedisCall
  state : AdData

def AdData.update (s : AdData) : Option Updated :=
  if !redis.ok .connect then some ⟨adFailure, [.connect], s⟩
  else if !redis.ok .timestamp then some ⟨adFailure, [.connect, .timestamp], s⟩
  else if redis.timestamp = s.lastTimeStamp then some ⟨adSuccess, [.connect, .timestamp], s⟩
  else if !redis.ok .keys then some ⟨adFailure, [.connect, .timestamp, .keys], s⟩
  else do
    let loaded ← loadPids parse redis redis.keys.zipIdx adSuccess ∅
    let pids := s.pids.setBack loaded.map
    return ⟨loaded.ret, [.connect, .timestamp, .keys] ++ loaded.gets,
      { s with pids := if loaded.complete then pids.switch else pids }⟩

def AdData.getPid (s : AdData) (sId : Bytes) : Int × Option AdPid :=
  match s.pids.get[sId]? with
  | some cPid => (adSuccess, some cPid)
  | none => (adFailure, none)

/-- A pid that a text says with success. -/
def parsed (sData : Bytes) : Option AdPid :=
  (parseText parse sData).bind fun (ret, pid) => if ret = adFailure then none else some pid

/-- The parsable pids of the hash, in the order of its keys. -/
def pidsOf : List AdPid := redis.keys.filterMap fun key => parsed parse (redis.value key)

/-- A map holds the pids, and of two with one name the later. -/
def Shows (map : PidMap) (pids : List AdPid) : Prop :=
  ∀ sId : Bytes, map[sId]? = (pids.filter (·.pid = sId)).getLast?

def Same (map other : PidMap) : Prop := ∀ sId : Bytes, map[sId]? = other[sId]?

/-- The timestamp is read and is the one of the last successful update. -/
def FoundAgain (last : Option Int) : Prop :=
  redis.ok .connect ∧ redis.ok .timestamp ∧ last = some redis.timestamp

/-- An unchanged timestamp reads and replaces nothing; else a success shows the pids of the
hash, and a failure shows what was there. -/
structure Meets (last : Option Int) (s : AdData) (updated : Updated) : Prop where
  again : FoundAgain redis last →
    updated.calls = [.connect, .timestamp] ∧ Same updated.state.pids.get s.pids.get
  success : ¬ FoundAgain redis last → updated.ret = adSuccess →
    Shows updated.state.pids.get (pidsOf parse redis)
  failure : updated.ret ≠ adSuccess → Same updated.state.pids.get s.pids.get

/-- The data and the timestamp of the last update that was a success. -/
def step (redis : Redis) (s : AdData × Option Int) : Option (AdData × Option Int) :=
  (s.1.update parse redis).map fun updated =>
    (updated.state, if updated.ret = adSuccess then some redis.timestamp else s.2)

/-- The text that is read last is one of a pid. -/
def LastParses : Prop :=
  ∀ key ∈ redis.keys.getLast?, ∃ pid, parseText parse (redis.value key) = some (adSuccess, pid)

/-- The timestamp -1 is the one that is never read; it has to come with nothing new. Any other
has to differ from the one of the last success, and the pid that is read last has to be
parsable unless a call fails or the pids are shown already. -/
def Fine (last : Option Int) (s : AdData) : Prop :=
  redis.ok .connect → redis.ok .timestamp →
    if redis.timestamp = adFailure then
      last = some adFailure ∨ Shows s.pids.get (pidsOf parse redis)
    else last ≠ some redis.timestamp ∧
      (¬ redis.ok .keys ∨ (∃ i < redis.keys.length, ¬ redis.ok (.get i)) ∨
        LastParses parse redis ∨ Shows s.pids.get (pidsOf parse redis))

variable {parse redis} {map : PidMap} {pids : List AdPid} {s : AdData} {last : Option Int}
  {updated : Updated} {loaded : Loaded} {ret : Int}

theorem shows_empty : Shows ∅ [] := fun sId => by simp

theorem Shows.insert (shown : Shows map pids) (p : AdPid) :
    Shows (map.insert p.pid p) (pids ++ [p]) := by
  intro sId
  rw [List.filter_append]
  by_cases same : p.pid = sId
  · simp [same]
  · rw [getElem?_insert_ne same, shown sId]
    simp [same]

theorem Shows.same (one : Shows map pids) (other : PidMap) : Shows other pids ↔ Same map other :=
  ⟨fun two sId => (one sId).trans (two sId).symm, fun same sId => (same sId).symm.trans (one sId)⟩

/-- What `GetPid` finds is the last pid of the name. -/
theorem getPid_shows (shown : Shows s.pids.get pids) (sId : Bytes) :
    s.getPid sId = match (pids.filter (·.pid = sId)).getLast? with
      | some cPid => (adSuccess, some cPid)
      | none => (adFailure, none) := by
  rw [AdData.getPid, shown sId]

/-- A text adds the pid that it says. -/
theorem parsePid_shows {sData : Bytes} {after : PidMap} (shown : Shows map pids)
    (done : parsePid parse sData map = some (ret, after)) :
    (∃ pid, parseText parse sData = some (ret, pid)) ∧
      Shows after (pids ++ (parsed parse sData).toList) := by
  rw [parsePid] at done
  obtain ⟨⟨result, pid⟩, said, same⟩ := Option.map_eq_some_iff.mp done
  obtain ⟨rfl, rfl⟩ := Prod.mk.inj same
  refine ⟨⟨pid, said⟩, ?_⟩
  rw [parsed, said, Option.bind_some]
  dsimp only
  split_ifs
  · simpa using shown
  · exact shown.insert pid

/-- The loop comes to its end when every call succeeds; then all pids are there, and the
result is the one of the last text. -/
theorem loadPids_spec {entries : List (Bytes × Nat)} (shown : Shows map pids)
    (done : loadPids parse redis entries ret map = some loaded) :
    (loaded.complete = true ↔ ∀ e ∈ entries, redis.ok (.get e.2)) ∧
      (loaded.complete = false → loaded.ret = adFailure) ∧
      (loaded.complete = true →
        Shows loaded.map (pids ++ entries.filterMap fun e => parsed parse (redis.value e.1)) ∧
        some loaded.ret = entries.getLast?.elim (some ret)
          fun e => (parseText parse (redis.value e.1)).map Prod.fst) := by
  induction entries generalizing map pids ret loaded with
  | nil =>
    obtain rfl := Option.some.inj done
    simpa using shown
  | cons e entries ih =>
    obtain ⟨key, index⟩ := e
    rw [loadPids] at done
    by_cases ok : redis.ok (.get index) = true
    · rw [if_pos ok] at done
      obtain ⟨⟨result, after⟩, one, done⟩ := Option.bind_eq_some_iff.mp done
      obtain ⟨rest, loaded', same⟩ := Option.bind_eq_some_iff.mp done
      obtain rfl := Option.some.inj same
      obtain ⟨⟨pid, said⟩, shown'⟩ := parsePid_shows shown one
      obtain ⟨reached, failed, complete⟩ := ih shown' loaded'
      refine ⟨?_, failed, fun whole => ?_⟩
      · rw [List.forall_mem_cons, and_iff_right ok]
        exact reached
      · obtain ⟨all, result'⟩ := complete whole
        constructor
        · rw [List.filterMap_cons]
          cases said' : parsed parse (redis.value key) with
          | none => simpa [said'] using all
          | some pid' => simpa [said'] using all
        · rw [List.getLast?_cons, Option.elim_some]
          cases last' : entries.getLast? with
          | none =>
            rw [last'] at result'
            simpa [said] using result'
          | some e =>
            rw [last'] at result'
            exact result'
    · rw [if_neg ok] at done
      obtain rfl := Option.some.inj done
      refine ⟨?_, fun _ => rfl, fun whole => by cases whole⟩
      rw [List.forall_mem_cons]
      simp [ok]

/-- An update that comes to its end shows the pids of the hash, with any result. -/
theorem loadPids_keys (done : loadPids parse redis redis.keys.zipIdx adSuccess ∅ = some loaded) :
    (loaded.complete = true ↔ ∀ i < redis.keys.length, redis.ok (.get i)) ∧
      (loaded.complete = false → loaded.ret = adFailure) ∧
      (loaded.complete = true → Shows loaded.map (pidsOf parse redis) ∧
        (loaded.ret = adSuccess ↔ LastParses parse redis)) := by
  obtain ⟨reached, failed, complete⟩ := loadPids_spec shows_empty done
  refine ⟨?_, failed, fun whole => ?_⟩
  · rw [reached]
    constructor
    · intro all i below
      have found : (redis.keys[i], i) ∈ redis.keys.zipIdx :=
        List.mem_zipIdx_iff_getElem?.mpr (List.getElem?_eq_getElem below)
      exact all _ found
    · rintro all ⟨key, i⟩ inside
      exact all i (List.getElem?_eq_some_iff.mp (List.mem_zipIdx_iff_getElem?.mp inside)).1
  · obtain ⟨all, result⟩ := complete whole
    have firsts : redis.keys.zipIdx.map Prod.fst = redis.keys := List.zipIdx_map_fst 0 redis.keys
    constructor
    · rw [pidsOf, ← firsts, List.filterMap_map]
      exact all
    · rw [LastParses, ← firsts, List.getLast?_map]
      cases last' : redis.keys.zipIdx.getLast? with
      | none =>
        rw [last'] at result
        simpa using result
      | some e =>
        rw [last', Option.elim_some] at result
        obtain ⟨⟨ret, pid⟩, said, same⟩ := Option.map_eq_some_iff.mp result.symm
        obtain rfl : ret = loaded.ret := same
        simp [said]

/-- The timestamp of the data is never written. -/
theorem update_timestamp (done : s.update parse redis = some updated) :
    updated.state.lastTimeStamp = s.lastTimeStamp := by
  rw [AdData.update] at done
  split_ifs at done
  iterate 4 · exact Option.some.inj done ▸ rfl
  obtain ⟨loaded, _, same⟩ := Option.bind_eq_some_iff.mp done
  exact Option.some.inj same ▸ rfl

theorem same_refl (map : PidMap) : Same map map := fun _ => rfl

theorem failure_ne_success : ¬ adFailure = adSuccess := by decide

/-- A call that fails before it writes anything. -/
theorem meets_failed {calls : List RedisCall} (unread : ¬ FoundAgain redis last) :
    Meets parse redis last s ⟨adFailure, calls, s⟩ :=
  ⟨fun again => absurd again unread, fun _ success => absurd success failure_ne_success,
    fun _ => same_refl _⟩

/-- A call that skips the reading. -/
theorem meets_skipped (connect : redis.ok .connect) (timestamp : redis.ok .timestamp) :
    Meets parse redis last s ⟨adSuccess, [.connect, .timestamp], s⟩ ↔
      last = some redis.timestamp ∨ Shows s.pids.get (pidsOf parse redis) := by
  constructor
  · intro meets
    by_cases again : last = some redis.timestamp
    · exact .inl again
    · exact .inr (meets.success (fun found => again found.2.2) rfl)
  · intro shown
    refine ⟨fun _ => ⟨rfl, same_refl _⟩, fun unread _ => ?_, fun failed => absurd rfl failed⟩
    exact shown.resolve_left fun again => unread ⟨connect, timestamp, again⟩

/-- A call that reads on. -/
theorem meets_read (connect : redis.ok .connect) (timestamp : redis.ok .timestamp)
    (more : updated.calls ≠ [.connect, .timestamp]) :
    Meets parse redis last s updated ↔ last ≠ some redis.timestamp ∧
      (updated.ret = adSuccess → Shows updated.state.pids.get (pidsOf parse redis)) ∧
      (updated.ret ≠ adSuccess → Same updated.state.pids.get s.pids.get) := by
  constructor
  · intro meets
    have unread : ¬ FoundAgain redis last := fun again => more (meets.again again).1
    exact ⟨fun same => unread ⟨connect, timestamp, same⟩, meets.success unread, meets.failure⟩
  · rintro ⟨unread, success, failure⟩
    exact ⟨fun again => absurd again.2.2 unread, fun _ => success, failure⟩

/-- What a call leaves that has read the keys. -/
def read (s : AdData) (loaded : Loaded) : Updated where
  ret := loaded.ret
  calls := [.connect, .timestamp, .keys] ++ loaded.gets
  state := { s with
    pids := if loaded.complete then (s.pids.setBack loaded.map).switch
      else s.pids.setBack loaded.map }

/-- A call that reads the pids: it stops at one, or ends with the result of the last. -/
theorem meets_loaded (connect : redis.ok .connect) (timestamp : redis.ok .timestamp)
    (loads : loadPids parse redis redis.keys.zipIdx adSuccess ∅ = some loaded) :
    Meets parse redis last s (read s loaded) ↔ last ≠ some redis.timestamp ∧
      ((∃ i < redis.keys.length, ¬ redis.ok (.get i)) ∨ LastParses parse redis ∨
        Shows s.pids.get (pidsOf parse redis)) := by
  obtain ⟨reached, failed, complete⟩ := loadPids_keys loads
  rw [meets_read connect timestamp (by simp [read])]
  refine and_congr_right fun _ => ?_
  rw [read]
  cases whole : loaded.complete with
  | false =>
    have stopped : ∃ i < redis.keys.length, ¬ redis.ok (.get i) := by
      by_contra none
      push Not at none
      exact absurd (reached.mpr none) (by simp [whole])
    refine iff_of_true ⟨fun success => ?_, fun _ => ?_⟩ (.inl stopped)
    · rw [failed whole] at success
      exact absurd success failure_ne_success
    · simpa using same_refl _
  | true =>
    obtain ⟨shown, success⟩ := complete whole
    have all : ¬ ∃ i < redis.keys.length, ¬ redis.ok (.get i) := fun ⟨i, below, not⟩ =>
      not (reached.mp whole i below)
    rw [or_iff_right all]
    simp only [if_true, AdPingPongBuffer.get_switch, AdPingPongBuffer.getBack_setBack]
    rw [← success, shown.same s.pids.get]
    constructor
    · rintro ⟨_, failure⟩
      exact Decidable.or_iff_not_imp_left.mpr failure
    · intro either
      exact ⟨fun _ => shown, either.resolve_left⟩

/-- One call does what an update has to do exactly when it is fine. -/
theorem meets_iff (start : s.lastTimeStamp = adFailure)
    (done : s.update parse redis = some updated) :
    Meets parse redis last s updated ↔ Fine parse redis last s := by
  rw [AdData.update] at done
  rw [Fine]
  by_cases connect : redis.ok .connect = true
  swap
  · obtain rfl : _ = updated := by simpa [connect] using done
    exact iff_of_true (meets_failed fun again => connect again.1) fun ok => absurd ok connect
  by_cases timestamp : redis.ok .timestamp = true
  swap
  · obtain rfl : _ = updated := by simpa [connect, timestamp] using done
    exact iff_of_true (meets_failed fun again => timestamp again.2.1)
      fun _ ok => absurd ok timestamp
  simp only [connect, timestamp, forall_const, Bool.not_true, Bool.false_eq_true, if_false]
    at done ⊢
  by_cases unset : redis.timestamp = adFailure
  · rw [if_pos (unset.trans start.symm)] at done
    rw [if_pos unset]
    obtain rfl := Option.some.inj done
    rw [meets_skipped connect timestamp, unset]
  rw [if_neg fun same => unset (same.trans start)] at done
  rw [if_neg unset]
  by_cases keys : redis.ok .keys = true
  swap
  · obtain rfl : _ = updated := by simpa [keys] using done
    rw [meets_read connect timestamp (by simp)]
    refine and_congr_right fun _ => iff_of_true ?_ (.inl keys)
    exact ⟨fun success => absurd success failure_ne_success, fun _ => same_refl _⟩
  simp only [keys, not_true, false_or, Bool.not_true, Bool.false_eq_true, if_false] at done ⊢
  obtain ⟨loaded, loads, same⟩ := Option.bind_eq_some_iff.mp done
  obtain rfl := Option.some.inj same
  exact meets_loaded connect timestamp loads

/-- In every run from the fresh data, each call does what an update has to do exactly when
each call is fine. -/
theorem pid_update (parse : Bytes → Option JsonValue) (calls : List Redis) :
    StepRuns.Throughout (step parse) (fun redis s => ∀ updated,
        s.1.update parse redis = some updated → Meets parse redis s.2 s.1 updated)
        (.fresh, none) calls ↔
      StepRuns.Throughout (step parse) (fun redis s => Fine parse redis s.2 s.1)
        (.fresh, none) calls := by
  have keep : ∀ redis (s after : AdData × Option Int), s.1.lastTimeStamp = adFailure →
      step parse redis s = some after → after.1.lastTimeStamp = adFailure := by
    intro redis s after start stepped
    obtain ⟨updated, done, rfl⟩ := Option.map_eq_some_iff.mp stepped
    exact (update_timestamp done).trans start
  refine StepRuns.throughout_congr keep ?_ rfl calls
  intro redis s after start stepped
  obtain ⟨updated, done, _⟩ := Option.map_eq_some_iff.mp stepped
  constructor
  · intro meets
    exact (meets_iff start done).mp (meets updated done)
  · intro fine updated' done'
    exact (meets_iff start done').mpr fine

def pidText : Bytes := ascii "\x7b\"mid\":1,\"pid\":\"a\",\"size\":\"1x1\"\x7d"

def pidParse (text : Bytes) : Option JsonValue :=
  if text = pidText then
    some (.object [(ascii "mid", .int 1), (ascii "pid", .string (ascii "a")),
      (ascii "size", .string (ascii "1x1"))])
  else none

/-- Two keys, of which the second has a text that is no JSON. -/
def pidRedis (timestamp : Int) (second : Bytes) : Redis where
  ok _ := true
  timestamp := timestamp
  keys := [ascii "a", ascii "b"]
  value key := if key = ascii "a" then pidText else second

/-- The same timestamp reads the pids again, a bad text at the end is reported although the
pids are switched, and the timestamp -1 is never read. -/
theorem pid_again :
    ¬ StepRuns.Throughout (step pidParse) (fun redis s => ∀ updated,
        s.1.update pidParse redis = some updated → Meets pidParse redis s.2 s.1 updated)
        (.fresh, none) [pidRedis 5 pidText, pidRedis 5 pidText] ∧
      ¬ StepRuns.Throughout (step pidParse) (fun redis s => ∀ updated,
        s.1.update pidParse redis = some updated → Meets pidParse redis s.2 s.1 updated)
        (.fresh, none) [pidRedis 5 (ascii "b")] ∧
      ¬ StepRuns.Throughout (step pidParse) (fun redis s => ∀ updated,
        s.1.update pidParse redis = some updated → Meets pidParse redis s.2 s.1 updated)
        (.fresh, none) [pidRedis (-1) pidText] := by
  have half : AdData.fresh.update pidParse (pidRedis 5 (ascii "b")) = some _ := rfl
  have unset : AdData.fresh.update pidParse (pidRedis (-1) pidText) = some _ := rfl
  refine ⟨fun all => ?_, fun all => ?_, fun all => ?_⟩
  · obtain ⟨s, first, updated, second, calls⟩ : ∃ s,
        step pidParse (pidRedis 5 pidText) (.fresh, none) = some (s, some 5) ∧
        ∃ updated, s.update pidParse (pidRedis 5 pidText) = some updated ∧
          updated.calls ≠ [.connect, .timestamp] := ⟨_, rfl, _, rfl, by decide +kernel⟩
    have meets := ((all _ first).2 _ (congrArg _ second)).1 updated second
    exact calls (meets.again ⟨rfl, rfl, rfl⟩).1
  · have meets := (all _ (congrArg _ half)).1 _ half
    have same := meets.failure (by decide +kernel) (ascii "a")
    revert same
    decide +kernel
  · have meets := (all _ (congrArg _ unset)).1 _ unset
    have shown := meets.success (fun again => by cases again.2.2) rfl (ascii "a")
    revert shown
    decide +kernel

end PidData
