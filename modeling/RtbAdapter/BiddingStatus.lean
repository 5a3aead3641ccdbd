import RtbAdapter.FilterKeys
import RtbAdapter.NetProtocol
import RtbAdapter.PendingAmounts
import RtbAdapter.RtbBase

/-!
# The response counts of a bidding task

A task counts its responses under the order they are for. Every ten seconds it adds
the counts to redis, one increment an order, and a count starts again from zero when
`AdRedisHIncRby` reports the increment as done. An update may stop at any order and goes
on with a later one. An error reply of redis is reported as done as well.
-/

namespace BiddingStatus

open ByteWords CText FilterKeys PendingAmounts RtbBase Std
open NetProtocol (adSuccess adFailure)

def adRtbStatusUpdateTime : Nat := 10

/-- The clock during an update: when the interval is measured, when it starts again, and
the day and the hour that are then printed into buffers of 16 characters. -/
structure UpdateClock where
  now : Time
  last : Time
  sDay : Bytes
  sHour : Bytes
  day_fits : sDay.length < 16

/-- A connection to redis: whether it is made, and which entries' increments are answered. -/
structure AdRedisCli (Entry : Type) where
  connected : Bool
  answers : Entry → Bool

/-- The command `HINCRBY` as redis takes it. -/
structure HIncRby where
  sKey : Bytes
  sFiled : Bytes
  value : Int32

def AdRedisCli.adRedisConnect {Entry : Type} (ctRedis : AdRedisCli Entry) : Int :=
  if ctRedis.connected then adSuccess else adFailure

def AdRedisCli.adRedisHIncRby {Entry : Type} (ctRedis : AdRedisCli Entry) (entry : Entry)
    (sKey : Bytes) : Int :=
  if sKey = [] ∨ ctRedis.answers entry = false then adFailure else adSuccess

/-- The address of the server has two parts. -/
def serverGiven (server : Bytes) : Bool :=
  server ≠ [] ∧ (strSplit server (ascii ":")).length = 2

structure AdBiddingTaskStatus where
  readyOrder : TreeMap UInt32 Int32 := ∅
  lastTime : Time

/-- The status after an update, what the update returns, and the increments that are reported
as done by `AdRedisHIncRby`. -/
structure Updated where
  ret : Int
  status : AdBiddingTaskStatus
  taken : List HIncRby

namespace AdBiddingTaskStatus

def adRtbStatusReadyAdd (status : AdBiddingTaskStatus) (uiEid : UInt32) : AdBiddingTaskStatus :=
  match status.readyOrder[uiEid]? with
  | none => { status with readyOrder := status.readyOrder.insert uiEid 1 }
  | some count => { status with readyOrder := status.readyOrder.insert uiEid (count + 1) }

def responseKey (sDay : Bytes) (uiEid : UInt32) : Bytes :=
  snprintf 128 (ascii "exec:response:" ++ cStr sDay ++ ascii ":" ++ decimalUInt uiEid)

/-- The loop over `m_mReadyOrder`, from the entry it has come to. -/
def updateLoop (ctRedis : AdRedisCli UInt32) (clock : UpdateClock) :
    List (UInt32 × Int32) → Updated → Updated
  | [], result => result
  | (uiEid, count) :: rest, result =>
    let sKey := responseKey clock.sDay uiEid
    let ret := ctRedis.adRedisHIncRby uiEid sKey
    if ret ≠ adSuccess then { result with ret }
    else
      updateLoop ctRedis clock rest
        { ret
          status :=
            { result.status with readyOrder := result.status.readyOrder.insert uiEid 0 }
          taken := result.taken ++ [⟨sKey, clock.sHour, count⟩] }

def adRtbStatusUpdate (status : AdBiddingTaskStatus) (server : Bytes) (clock : UpdateClock)
    (ctRedis : AdRedisCli UInt32) : Updated :=
  if ¬ serverGiven server then ⟨adFailure, status, []⟩
  else if status.readyOrder.isEmpty then ⟨adSuccess, status, []⟩
  else if status.lastTime.toNow clock.now < adRtbStatusUpdateTime * 1000000 then
    ⟨adSuccess, status, []⟩
  else
    let status := { status with lastTime := clock.last }
    let ret := ctRedis.adRedisConnect
    if ret ≠ adSuccess then ⟨ret, status, []⟩
    else updateLoop ctRedis clock status.readyOrder.toList ⟨ret, status, []⟩

end AdBiddingTaskStatus

inductive Call where
  | readyAdd (uiEid : UInt32)
  | update (server : Bytes) (clock : UpdateClock) (ctRedis : AdRedisCli UInt32)

/-- The status of a task beside all its increments that were reported as done. -/
structure Bidding where
  status : AdBiddingTaskStatus
  taken : List HIncRby := []

def step (bidding : Bidding) : Call → Bidding
  | .readyAdd uiEid => { bidding with status := bidding.status.adRtbStatusReadyAdd uiEid }
  | .update server clock ctRedis =>
    let updated := bidding.status.adRtbStatusUpdate server clock ctRedis
    ⟨updated.status, bidding.taken ++ updated.taken⟩

def run (lastTime : Time) (calls : List Call) : Bidding :=
  calls.foldl step { status := { lastTime } }

/-- The order a key ends with. -/
def orderOf (sKey : Bytes) : Bytes := (sKey.reverse.takeWhile (· ≠ 58)).reverse

/-- What was reported as added for an order, on any day and in any hour. -/
def incremented (uiEid : UInt32) (taken : List HIncRby) : Int :=
  amountOf (decimalUInt uiEid) (taken.map fun incr => (orderOf incr.sKey, incr.value.toInt))

def pending (uiEid : UInt32) (readyOrder : TreeMap UInt32 Int32) : Int :=
  readyOrder[uiEid]?.elim 0 Int32.toInt

def isAdd (uiEid : UInt32) : Call → Bool
  | .readyAdd other => other = uiEid
  | .update .. => false

/-- How often an order was counted. -/
def adds (uiEid : UInt32) (calls : List Call) : Nat := calls.countP (isAdd uiEid)

/-- The account of one order after `n` counts. -/
structure Accounted (uiEid : UInt32) (n : Int) (taken : List HIncRby)
    (readyOrder : TreeMap UInt32 Int32) : Prop where
  sum : incremented uiEid taken + pending uiEid readyOrder = n
  incremented_nonneg : 0 ≤ incremented uiEid taken
  pending_nonneg : 0 ≤ pending uiEid readyOrder

open AdBiddingTaskStatus

theorem orderOf_responseKey (clock : UpdateClock) (uiEid : UInt32) :
    orderOf (responseKey clock.sDay uiEid) = decimalUInt uiEid := by
  have whole : responseKey clock.sDay uiEid =
      ascii "exec:response:" ++ cStr clock.sDay ++ ascii ":" ++ decimalUInt uiEid := by
    apply snprintf_whole
    have day := cStr_length clock.sDay
    have fits := clock.day_fits
    have number := decimalUInt_length uiEid
    have front : (ascii "exec:response:").length = 14 := by decide
    have colon : (ascii ":").length = 1 := by decide
    simp only [List.length_append, front, colon]
    omega
  have clean : ∀ b ∈ (decimalUInt uiEid).reverse, decide (b ≠ 58) = true := by
    intro b inside
    have absent := notMem_decimalUInt (b := 58) (by decide) uiEid
    simp only [decide_eq_true_eq]
    rintro rfl
    exact absent (List.mem_reverse.mp inside)
  have front : (ascii "exec:response:" ++ cStr clock.sDay ++ ascii ":").reverse =
      58 :: (ascii "exec:response:" ++ cStr clock.sDay).reverse := List.reverse_append
  rw [orderOf, whole, List.reverse_append, List.takeWhile_append_of_pos clean, front]
  simp

theorem incremented_append (uiEid : UInt32) (taken more : List HIncRby) :
    incremented uiEid (taken ++ more) = incremented uiEid taken + incremented uiEid more := by
  rw [incremented, List.map_append, amountOf_append]
  rfl

theorem incremented_response (clock : UpdateClock) (uiEid other : UInt32) (count : Int32) :
    incremented uiEid [⟨responseKey clock.sDay other, clock.sHour, count⟩] =
      if other = uiEid then count.toInt else 0 := by
  rw [incremented, List.map_singleton, amountOf_singleton, orderOf_responseKey]
  simp only [decimalUInt_injective.eq_iff]

theorem pending_insert (uiEid other : UInt32) (count : Int32)
    (readyOrder : TreeMap UInt32 Int32) :
    pending uiEid (readyOrder.insert other count) =
      if other = uiEid then count.toInt else pending uiEid readyOrder := by
  rw [pending, TreeMap.getElem?_insert]
  by_cases same : other = uiEid
  · simp [same]
  · simp [same, pending]

/-- A count that is added to redis is the one the order had. -/
theorem Accounted.take {uiEid : UInt32} {n : Int} {taken : List HIncRby}
    {readyOrder : TreeMap UInt32 Int32} (accounted : Accounted uiEid n taken readyOrder)
    (clock : UpdateClock) {other : UInt32} {count : Int32}
    (found : readyOrder[other]? = some count) :
    Accounted uiEid n (taken ++ [⟨responseKey clock.sDay other, clock.sHour, count⟩])
      (readyOrder.insert other 0) := by
  obtain ⟨sum, taken_nonneg, nonneg⟩ := accounted
  by_cases same : other = uiEid
  · subst same
    have here : pending other readyOrder = count.toInt := by rw [pending, found, Option.elim_some]
    have zero : (0 : Int32).toInt = 0 := rfl
    refine ⟨?_, ?_, ?_⟩
    · rw [incremented_append, incremented_response, pending_insert, if_pos rfl, if_pos rfl, zero]
      omega
    · rw [incremented_append, incremented_response, if_pos rfl]
      omega
    · rw [pending_insert, if_pos rfl, zero]
  · refine ⟨?_, ?_, ?_⟩
    · rw [incremented_append, incremented_response, pending_insert, if_neg same, if_neg same]
      omega
    · rw [incremented_append, incremented_response, if_neg same]
      omega
    · rw [pending_insert, if_neg same]
      exact nonneg

/-- The loop keeps the account of every order, wherever it stops. -/
theorem updateLoop_accounted (ctRedis : AdRedisCli UInt32) (clock : UpdateClock)
    {entries : List (UInt32 × Int32)} {result : Updated} {uiEid : UInt32} {n : Int}
    {before : List HIncRby}
    (apart : entries.Pairwise fun one other => one.1 ≠ other.1)
    (stored : ∀ entry ∈ entries, result.status.readyOrder[entry.1]? = some entry.2)
    (accounted : Accounted uiEid n (before ++ result.taken) result.status.readyOrder) :
    let updated := updateLoop ctRedis clock entries result
    Accounted uiEid n (before ++ updated.taken) updated.status.readyOrder := by
  induction entries generalizing result with
  | nil => exact accounted
  | cons entry rest ih =>
    obtain ⟨other, count⟩ := entry
    obtain ⟨first, later⟩ := List.pairwise_cons.mp apart
    simp only [updateLoop]
    split
    · exact accounted
    · apply ih later
      · intro entry listed
        have elsewhere : compare other entry.1 ≠ .eq := by
          rw [ne_eq, Std.compare_eq_iff_eq]
          exact first entry listed
        rw [TreeMap.getElem?_insert, if_neg elsewhere]
        exact stored entry (.tail _ listed)
      · have found := stored (other, count) (.head _)
        rw [← List.append_assoc]
        exact accounted.take clock found

theorem update_accounted {bidding : Bidding} {uiEid : UInt32} {n : Int}
    (accounted : Accounted uiEid n bidding.taken bidding.status.readyOrder) (server : Bytes)
    (clock : UpdateClock) (ctRedis : AdRedisCli UInt32) :
    let updated := bidding.status.adRtbStatusUpdate server clock ctRedis
    Accounted uiEid n (bidding.taken ++ updated.taken) updated.status.readyOrder := by
  have same : Accounted uiEid n (bidding.taken ++ []) bidding.status.readyOrder := by
    rw [List.append_nil]
    exact accounted
  simp only [adRtbStatusUpdate]
  split
  · exact same
  split
  · exact same
  split
  · exact same
  split
  · exact same
  · apply updateLoop_accounted ctRedis clock toList_apart ?_ same
    intro entry listed
    exact TreeMap.mem_toList_iff_getElem?_eq_some.mp listed

theorem readyAdd_pending_other (status : AdBiddingTaskStatus) {uiEid other : UInt32}
    (different : other ≠ uiEid) :
    pending uiEid (status.adRtbStatusReadyAdd other).readyOrder =
      pending uiEid status.readyOrder := by
  cases found : status.readyOrder[other]? with
  | none => simp only [adRtbStatusReadyAdd, found, pending_insert, if_neg different]
  | some count => simp only [adRtbStatusReadyAdd, found, pending_insert, if_neg different]

/-- A count below its end goes up by one. -/
theorem readyAdd_pending (status : AdBiddingTaskStatus) {uiEid : UInt32}
    (nonneg : 0 ≤ pending uiEid status.readyOrder)
    (room : pending uiEid status.readyOrder + 1 < 2 ^ 31) :
    pending uiEid (status.adRtbStatusReadyAdd uiEid).readyOrder =
      pending uiEid status.readyOrder + 1 := by
  have one : (1 : Int32).toInt = 1 := rfl
  cases found : status.readyOrder[uiEid]? with
  | none =>
    have none : pending uiEid status.readyOrder = 0 := by rw [pending, found, Option.elim_none]
    simp only [adRtbStatusReadyAdd, found, pending_insert, if_pos]
    omega
  | some count =>
    have here : pending uiEid status.readyOrder = count.toInt := by
      rw [pending, found, Option.elim_some]
    simp only [adRtbStatusReadyAdd, found, pending_insert, if_pos]
    rw [here] at nonneg room ⊢
    rw [Int32.toInt_add, one]
    exact Int.bmod_eq_of_le (by omega) (by omega)

theorem step_accounted {bidding : Bidding} {uiEid : UInt32} {n : Nat} (call : Call)
    (accounted : Accounted uiEid n bidding.taken bidding.status.readyOrder)
    (few : n + adds uiEid [call] < 2 ^ 31) :
    Accounted uiEid (n + adds uiEid [call] : Nat) (step bidding call).taken
      (step bidding call).status.readyOrder := by
  cases call with
  | readyAdd other =>
    obtain ⟨sum, taken_nonneg, nonneg⟩ := accounted
    by_cases same : other = uiEid
    · subst same
      have one : adds other [.readyAdd other] = 1 := by simp [adds, isAdd]
      rw [one] at few ⊢
      have more := readyAdd_pending bidding.status nonneg (by omega)
      refine ⟨?_, taken_nonneg, ?_⟩
      · simp only [step]
        omega
      · simp only [step]
        omega
    · have none : adds uiEid [.readyAdd other] = 0 := by simp [adds, isAdd, same]
      have unchanged := readyAdd_pending_other bidding.status same
      rw [none, Nat.add_zero]
      refine ⟨?_, taken_nonneg, ?_⟩
      · simp only [step]
        omega
      · simp only [step]
        omega
  | update server clock ctRedis =>
    have none : adds uiEid [.update server clock ctRedis] = 0 := by simp [adds, isAdd]
    rw [none, Nat.add_zero]
    exact update_accounted accounted server clock ctRedis

theorem calls_accounted {bidding : Bidding} {uiEid : UInt32} {n : Nat} {calls : List Call}
    (accounted : Accounted uiEid n bidding.taken bidding.status.readyOrder)
    (few : n + adds uiEid calls < 2 ^ 31) :
    let after := calls.foldl step bidding
    Accounted uiEid (n + adds uiEid calls : Nat) after.taken after.status.readyOrder := by
  induction calls generalizing bidding n with
  | nil => exact accounted
  | cons call calls ih =>
    have split : adds uiEid (call :: calls) = adds uiEid [call] + adds uiEid calls := by
      rw [adds, ← List.singleton_append, List.countP_append]
      rfl
    rw [split, ← Nat.add_assoc] at few ⊢
    have here := step_accounted call accounted (by omega)
    exact ih here few

theorem accounted_start (lastTime : Time) (uiEid : UInt32) :
    Accounted uiEid (0 : Nat) (run lastTime []).taken (run lastTime []).status.readyOrder := by
  have nothing : pending uiEid ∅ = 0 := by simp [pending]
  refine ⟨?_, ?_, ?_⟩
  · exact nothing
  · exact le_rfl
  · exact nothing.ge

/-- Whatever redis answers, what was reported as added for an order and what is still pending add
up to how often the order was counted. -/
theorem responses_conserved (lastTime : Time) (calls : List Call) (uiEid : UInt32)
    (few : adds uiEid calls < 2 ^ 31) :
    incremented uiEid (run lastTime calls).taken +
      pending uiEid (run lastTime calls).status.readyOrder = adds uiEid calls := by
  have start := accounted_start lastTime uiEid
  have accounted := calls_accounted start (by omega : 0 + adds uiEid calls < 2 ^ 31)
  rw [Nat.zero_add] at accounted
  exact accounted.sum

/-- The second order of an update fails, and counts on. -/
def stoppedUpdate : List Call :=
  let clock : UpdateClock := ⟨⟨60, 0⟩, ⟨60, 0⟩, ascii "2024-01-01", ascii "12", by decide⟩
  [.readyAdd 3, .readyAdd 4, .readyAdd 4,
    .update (ascii "10.0.0.1:6379") clock ⟨true, fun uiEid => uiEid = 3⟩, .readyAdd 4]

theorem stoppedUpdate_conserved :
    incremented 4 (run ⟨0, 0⟩ stoppedUpdate).taken +
      pending 4 (run ⟨0, 0⟩ stoppedUpdate).status.readyOrder = adds 4 stoppedUpdate :=
  responses_conserved ⟨0, 0⟩ stoppedUpdate 4 (by decide +kernel)

end BiddingStatus
