import RtbAdapter.NetBase

/-!
# The message queues of the network base

A session that has a message is handed to one of several tasks, each with a queue of
its own. There is a vector of queues for reading and one for writing, and a cursor
for each of them.
-/

namespace MessageQueues

open NetBase RingBuffer StepRuns

def adNetMsgRead : UInt32 := 1
def adNetMsgWrite : UInt32 := 2

structure AdNetQueues where
  msgRead : List (List Nat) := []
  msgWrite : List (List Nat) := []
  uiRead : Nat := 0
  uiWrite : Nat := 0

/-- A cursor, an `unsigned int`, after `++` and the test against the size. -/
def next (cursor size : Nat) : Nat :=
  let cursor := (cursor + 1) % 4294967296
  if size ≤ cursor then 0 else cursor

/-- What a push comes to: the queues after it, an index outside a vector, or a loop that has
not come to its end in the turns it was given. -/
inductive Pushed where
  | pushed (queues : AdNetQueues)
  | outside
  | turning

namespace AdNetQueues

variable (queues : AdNetQueues)

/-- `AdNetBaseInit`, whose `new` always finds memory. -/
def adNetBaseInit (msgRead msgWrite : Int32) : AdNetQueues :=
  { queues with
    msgRead := queues.msgRead ++ List.replicate (max 1 msgRead.toInt).toNat []
    msgWrite := queues.msgWrite ++ List.replicate (max 1 msgWrite.toInt).toNat [] }

/-- The loop for `AD_NET_MSG_READ`. A turn calls `tryPush` once. -/
def pushRead (pSession : Nat) : Nat → AdNetQueues → Pushed
  | 0, _ => .turning
  | turns + 1, queues =>
    match queues.msgRead[queues.uiRead]? with
    | none => .outside
    | some queue => match tryPush adTaskSessionMax queue pSession with
      | some queue => .pushed { queues with
          msgRead := queues.msgRead.set queues.uiRead queue
          uiRead := next queues.uiRead queues.msgRead.length }
      | none =>
        pushRead pSession turns { queues with
          uiRead := next queues.uiRead queues.msgRead.length }

/-- The loop for `AD_NET_MSG_WRITE`. It looks where the other cursor is. -/
def pushWrite (pSession : Nat) : Nat → AdNetQueues → Pushed
  | 0, _ => .turning
  | turns + 1, queues =>
    match queues.msgWrite[queues.uiRead]? with
    | none => .outside
    | some queue => match tryPush adTaskSessionMax queue pSession with
      | some queue => .pushed { queues with
          msgWrite := queues.msgWrite.set queues.uiRead queue }
      | none =>
        pushWrite pSession turns { queues with
          uiWrite := next queues.uiWrite queues.msgWrite.length }

/-- `AdNetBasePushMsg`, while no task takes a session off a queue. -/
def adNetBasePushMsg (turns pSession : Nat) (uiType : UInt32) : Pushed :=
  if uiType = adNetMsgRead then pushRead pSession turns queues
  else if uiType = adNetMsgWrite then pushWrite pSession turns queues
  else .pushed queues

/-- The queues of a type. -/
def msgs (uiType : UInt32) : List (List Nat) :=
  if uiType = adNetMsgRead then queues.msgRead
  else if uiType = adNetMsgWrite then queues.msgWrite
  else []

/-- A task takes a session off the queue that `AdNetBaseGetMsg` gives it. -/
def popMsg (id : Nat) (uiType : UInt32) : Option AdNetQueues :=
  if uiType = adNetMsgRead then do
    let at' := id % queues.msgRead.length
    let (_, queue) ← tryPop (← queues.msgRead[at']?)
    return { queues with msgRead := queues.msgRead.set at' queue }
  else if uiType = adNetMsgWrite then do
    let at' := id % queues.msgWrite.length
    let (_, queue) ← tryPop (← queues.msgWrite[at']?)
    return { queues with msgWrite := queues.msgWrite.set at' queue }
  else none

end AdNetQueues

inductive QueueEvent where
  | push (pSession : Nat) (uiType : UInt32)
  | pop (id : Nat) (uiType : UInt32)

/-- A push that ends gets as many turns as it needs. -/
def step : QueueEvent → AdNetQueues → Option AdNetQueues
  | .push pSession uiType, queues =>
    match queues.adNetBasePushMsg ((queues.msgs uiType).length + 1) pSession uiType with
    | .pushed after => some after
    | _ => none
  | .pop id uiType, queues => queues.popMsg id uiType

/-- The queues of a base after its initialisation. -/
def start (msgRead msgWrite : Int32) : AdNetQueues :=
  ({} : AdNetQueues).adNetBaseInit msgRead msgWrite

def HasRoom (queue : List Nat) : Prop := queue.length + 1 < adTaskSessionMax

instance (queue : List Nat) : Decidable (HasRoom queue) := inferInstanceAs (Decidable (_ < _))

/-- In as many turns as there are queues, all inside the vector of the type, one of its queues
takes the session, and nothing else changes in the two vectors. -/
def Dispatches (queues : AdNetQueues) (pSession : Nat) (uiType : UInt32) : Prop :=
  ∃ i queue after, (queues.msgs uiType)[i]? = some queue ∧ HasRoom queue ∧
    queues.adNetBasePushMsg (queues.msgs uiType).length pSession uiType = .pushed after ∧
    after.msgs uiType = (queues.msgs uiType).set i (queue ++ [pSession]) ∧
    ∀ other, other ≠ uiType → after.msgs other = queues.msgs other

/-- The two vectors have the same sizes and the two cursors stand at the same places. -/
structure SameCursors (queues other : AdNetQueues) : Prop where
  msgRead : queues.msgRead.length = other.msgRead.length
  msgWrite : queues.msgWrite.length = other.msgWrite.length
  uiRead : queues.uiRead = other.uiRead
  uiWrite : queues.uiWrite = other.uiWrite

/-- The cursor of the readers stands at a queue of the writers that has room. -/
def Aimed (queues : AdNetQueues) : Prop :=
  ∃ queue, queues.msgWrite[queues.uiRead]? = some queue ∧ HasRoom queue

variable {queues after : AdNetQueues} {queue : List Nat} {pSession turns : Nat}

theorem tryPush_room (room : HasRoom queue) :
    tryPush adTaskSessionMax queue pSession = some (queue ++ [pSession]) := if_pos room

theorem tryPush_full (full : ¬ HasRoom queue) :
    tryPush adTaskSessionMax queue pSession = none := if_neg full

theorem next_eq {cursor size : Nat} (inside : cursor < size) (small : size ≤ 4294967296) :
    next cursor size = (cursor + 1) % size := by
  simp only [next]
  by_cases last : cursor + 1 = size
  · rw [last, Nat.mod_self]
    by_cases full : size = 4294967296
    · rw [full, Nat.mod_self]
      rfl
    · rw [Nat.mod_eq_of_lt (by omega), if_pos (Nat.le_refl size)]
  · rw [Nat.mod_eq_of_lt (by omega), Nat.mod_eq_of_lt (by omega), if_neg (by omega)]

theorem next_lt {cursor size : Nat} (some' : 0 < size) : next cursor size < size := by
  simp only [next]
  split
  · exact some'
  · next below => omega

/-- The vectors are not empty and can be counted, and the cursors stand inside. -/
structure Placed (queues : AdNetQueues) : Prop where
  uiRead : queues.uiRead < queues.msgRead.length
  uiWrite : queues.uiWrite < queues.msgWrite.length
  small : queues.msgRead.length ≤ 4294967296

theorem placed_start (msgRead msgWrite : Int32) : Placed (start msgRead msgWrite) := by
  have bound := msgRead.toInt_lt
  constructor
  · simp [start, AdNetQueues.adNetBaseInit]
  · simp [start, AdNetQueues.adNetBaseInit]
  · simp only [start, AdNetQueues.adNetBaseInit, List.nil_append, List.length_replicate]
    omega

theorem Placed.of_same (placed : Placed after) (same : SameCursors queues after) :
    Placed queues where
  uiRead := by rw [same.uiRead, same.msgRead]; exact placed.uiRead
  uiWrite := by rw [same.uiWrite, same.msgWrite]; exact placed.uiWrite
  small := by rw [same.msgRead]; exact placed.small

theorem Placed.nextRead (placed : Placed queues) :
    Placed { queues with uiRead := next queues.uiRead queues.msgRead.length } :=
  ⟨next_lt (Nat.zero_lt_of_lt placed.uiRead), placed.uiWrite, placed.small⟩

theorem Placed.nextWrite (placed : Placed queues) :
    Placed { queues with uiWrite := next queues.uiWrite queues.msgWrite.length } :=
  ⟨placed.uiRead, next_lt (Nat.zero_lt_of_lt placed.uiWrite), placed.small⟩

theorem pushRead_placed (placed : Placed queues)
    (pushed : queues.pushRead pSession turns = .pushed after) : Placed after := by
  induction turns generalizing queues with
  | zero => cases pushed
  | succ turns ih =>
    rw [AdNetQueues.pushRead] at pushed
    split at pushed
    · cases pushed
    · split at pushed
      · obtain rfl := Pushed.pushed.inj pushed
        constructor
        · simpa using placed.nextRead.uiRead
        · exact placed.uiWrite
        · simpa using placed.small
      · exact ih placed.nextRead pushed

theorem pushWrite_placed (placed : Placed queues)
    (pushed : queues.pushWrite pSession turns = .pushed after) : Placed after := by
  induction turns generalizing queues with
  | zero => cases pushed
  | succ turns ih =>
    rw [AdNetQueues.pushWrite] at pushed
    split at pushed
    · cases pushed
    · split at pushed
      · obtain rfl := Pushed.pushed.inj pushed
        exact { placed with uiWrite := by simpa using placed.uiWrite }
      · exact ih placed.nextWrite pushed

theorem popMsg_placed {id : Nat} {uiType : UInt32} (placed : Placed queues)
    (popped : queues.popMsg id uiType = some after) : Placed after := by
  rw [AdNetQueues.popMsg] at popped
  split at popped
  · obtain ⟨queue, -, popped⟩ := Option.bind_eq_some_iff.mp popped
    obtain ⟨result, -, popped⟩ := Option.bind_eq_some_iff.mp popped
    obtain rfl := Option.some.inj popped
    exact { placed with
      uiRead := by simpa using placed.uiRead
      small := by simpa using placed.small }
  · split at popped
    · obtain ⟨queue, -, popped⟩ := Option.bind_eq_some_iff.mp popped
      obtain ⟨result, -, popped⟩ := Option.bind_eq_some_iff.mp popped
      obtain rfl := Option.some.inj popped
      exact { placed with uiWrite := by simpa using placed.uiWrite }
    · cases popped

theorem step_placed {event : QueueEvent} (placed : Placed queues)
    (stepped : step event queues = some after) : Placed after := by
  cases event with
  | push pSession uiType =>
    simp only [step] at stepped
    split at stepped
    · next reached pushed =>
      obtain rfl := Option.some.inj stepped
      rw [AdNetQueues.adNetBasePushMsg] at pushed
      split at pushed
      · exact pushRead_placed placed pushed
      · split at pushed
        · exact pushWrite_placed placed pushed
        · obtain rfl := Pushed.pushed.inj pushed
          exact placed
    · cases stepped
  | pop id uiType => exact popMsg_placed placed stepped

theorem states_placed (msgRead msgWrite : Int32) (events : List QueueEvent) :
    ∀ queues ∈ states step (start msgRead msgWrite) events, Placed queues :=
  states_keep (fun _ _ _ placed stepped => step_placed placed stepped)
    (placed_start msgRead msgWrite) events

/-- The readers' loop finds a queue with room, however far behind the cursor it stands. -/
theorem pushRead_finds (pSession : Nat) {ahead : Nat} (placed : Placed queues)
    (enough : ahead < turns)
    (there : queues.msgRead[(queues.uiRead + ahead) % queues.msgRead.length]? = some queue)
    (room : HasRoom queue) :
    ∃ i queue cursor, queues.msgRead[i]? = some queue ∧ HasRoom queue ∧
      queues.pushRead pSession turns = .pushed { queues with
        msgRead := queues.msgRead.set i (queue ++ [pSession])
        uiRead := cursor } := by
  induction ahead generalizing queues turns with
  | zero =>
    obtain ⟨turns, rfl⟩ := Nat.exists_eq_succ_of_ne_zero (Nat.ne_zero_of_lt enough)
    rw [Nat.add_zero, Nat.mod_eq_of_lt placed.uiRead] at there
    refine ⟨_, queue, next queues.uiRead queues.msgRead.length, there, room, ?_⟩
    rw [AdNetQueues.pushRead, there]
    dsimp only
    rw [tryPush_room room]
  | succ ahead ih =>
    obtain ⟨turns, rfl⟩ := Nat.exists_eq_succ_of_ne_zero (Nat.ne_zero_of_lt enough)
    obtain ⟨first, here⟩ : ∃ first, queues.msgRead[queues.uiRead]? = some first :=
      ⟨_, List.getElem?_eq_getElem placed.uiRead⟩
    rw [AdNetQueues.pushRead, here]
    dsimp only
    by_cases free : HasRoom first
    · rw [tryPush_room free]
      exact ⟨_, first, next queues.uiRead queues.msgRead.length, here, free, rfl⟩
    · rw [tryPush_full free]
      have moved := next_eq placed.uiRead placed.small
      have later : (next queues.uiRead queues.msgRead.length + ahead) % queues.msgRead.length =
          (queues.uiRead + (ahead + 1)) % queues.msgRead.length := by
        rw [moved, Nat.mod_add_mod]
        congr 1
        omega
      exact ih placed.nextRead (by omega) (by rw [later]; exact there)

theorem dispatches_read (placed : Placed queues)
    (room : ∃ queue ∈ queues.msgRead, HasRoom queue) :
    Dispatches queues pSession adNetMsgRead := by
  obtain ⟨queue, inside, free⟩ := room
  obtain ⟨k, below, rfl⟩ := List.mem_iff_getElem.mp inside
  have positive := Nat.zero_lt_of_lt below
  have cursor := placed.uiRead
  -- the queue is so many places ahead of the cursor, around the end of the vector
  have place : (queues.uiRead + (k + queues.msgRead.length - queues.uiRead) %
      queues.msgRead.length) % queues.msgRead.length = k := by
    rw [Nat.add_mod_mod, show queues.uiRead + (k + queues.msgRead.length - queues.uiRead) =
      k + queues.msgRead.length by omega, Nat.add_mod_right, Nat.mod_eq_of_lt below]
  obtain ⟨i, queue, cursor, there, room, pushed⟩ := pushRead_finds pSession placed
    (Nat.mod_lt _ positive) (by rw [place]; exact List.getElem?_eq_getElem below) free
  refine ⟨i, queue, _, there, room, pushed, rfl, fun other apart => ?_⟩
  simp only [AdNetQueues.msgs, if_neg apart]

/-- The writers' loop does not move the cursor it looks at. -/
theorem pushWrite_stays (full : ∀ queue, queues.msgWrite[queues.uiRead]? = some queue →
    ¬ HasRoom queue) : queues.pushWrite pSession turns ≠ .pushed after := by
  induction turns generalizing queues with
  | zero => exact Pushed.noConfusion
  | succ turns ih =>
    rw [AdNetQueues.pushWrite]
    cases found : queues.msgWrite[queues.uiRead]? with
    | none => exact Pushed.noConfusion
    | some queue =>
      dsimp only
      rw [tryPush_full (full queue found)]
      exact ih full

theorem dispatches_write : Dispatches queues pSession adNetMsgWrite ↔ Aimed queues := by
  constructor
  · rintro ⟨i, queue, after, -, -, pushed, -⟩
    by_contra away
    exact pushWrite_stays (fun queue found room => away ⟨queue, found, room⟩) pushed
  · rintro ⟨queue, found, room⟩
    obtain ⟨below, -⟩ := List.getElem?_eq_some_iff.mp found
    obtain ⟨turns, same⟩ := Nat.exists_eq_succ_of_ne_zero (Nat.ne_zero_of_lt below)
    refine ⟨queues.uiRead, queue, { queues with
      msgWrite := queues.msgWrite.set queues.uiRead (queue ++ [pSession]) }, found, room, ?_, rfl,
      fun other apart => ?_⟩
    · change queues.pushWrite pSession queues.msgWrite.length = _
      rw [same, AdNetQueues.pushWrite, found]
      dsimp only
      rw [tryPush_room room]
    · simp only [AdNetQueues.msgs, if_neg apart]

/-- With cursors that a base can come to and room in some queue of the type, a session for
reading is dispatched, and one for writing exactly when the readers' cursor is aimed well. -/
theorem push_dispatches (msgRead msgWrite : Int32) (events : List QueueEvent)
    (reached : AdNetQueues) (reaches : reached ∈ states step (start msgRead msgWrite) events)
    (queues : AdNetQueues) (cursors : SameCursors queues reached) (pSession : Nat)
    (uiType : UInt32) (either : uiType = adNetMsgRead ∨ uiType = adNetMsgWrite)
    (room : ∃ queue ∈ queues.msgs uiType, HasRoom queue) :
    Dispatches queues pSession uiType ↔ (uiType = adNetMsgWrite → Aimed queues) := by
  have placed := (states_placed msgRead msgWrite events reached reaches).of_same cursors
  rcases either with rfl | rfl
  · exact ⟨fun _ equal => absurd equal (by decide), fun _ => dispatches_read placed room⟩
  · rw [dispatches_write]
    exact ⟨fun aimed _ => aimed, fun aimed => aimed rfl⟩

def oneRead : List QueueEvent := [.push 7 adNetMsgRead]

/-- The readers' cursor has moved on. -/
def afterOneRead : AdNetQueues where
  msgRead := [[7], []]
  msgWrite := [[]]
  uiRead := 1

theorem afterOneRead_reached : afterOneRead ∈ states step (start 2 1) oneRead :=
  .tail _ (.head _)

theorem afterOneRead_dispatches : Dispatches afterOneRead 8 adNetMsgRead ↔
    (adNetMsgRead = adNetMsgWrite → Aimed afterOneRead) :=
  push_dispatches 2 1 oneRead afterOneRead afterOneRead_reached afterOneRead ⟨rfl, rfl, rfl, rfl⟩
    8 adNetMsgRead (.inl rfl) ⟨[], .tail _ (.head _), by decide⟩

/-- The only queue for writing is empty, and is not where the session is put. -/
theorem write_outside : afterOneRead ∈ states step (start 2 1) oneRead ∧
    (∃ queue ∈ afterOneRead.msgs adNetMsgWrite, HasRoom queue) ∧
    afterOneRead.adNetBasePushMsg 1 8 adNetMsgWrite = .outside ∧
    ¬ Dispatches afterOneRead 8 adNetMsgWrite := by
  refine ⟨afterOneRead_reached, ⟨[], .head _, by decide⟩, rfl, ?_⟩
  rw [dispatches_write]
  rintro ⟨queue, found, -⟩
  cases found

end MessageQueues
