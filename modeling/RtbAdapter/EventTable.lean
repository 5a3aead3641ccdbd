import RtbAdapter.InverseMaps
import RtbAdapter.NetProtocol
import RtbAdapter.ObjectLedger
import RtbAdapter.StepRuns

/-!
# The event table

`AdEvent` keeps the libevent events of the sockets in two maps, one for reading and
one for writing, with the flags and the time out each socket was registered with in
two others. Whether `event_new` finds memory is an input of each call.
-/

namespace EventTable

open ObjectLedger InverseMaps Std
open NetProtocol (adSuccess adFailure)

def adEventRead : UInt32 := 0x1
def adEventWrite : UInt32 := 0x2
def adEventTimeout : UInt32 := 0x4
def adEventError : UInt32 := 0x8

/-- `flags & bit`, as a condition -/
def has (flags bit : UInt32) : Bool := flags &&& bit ≠ 0

structure TimeVal where
  sec : UInt32
  usec : UInt32
  deriving DecidableEq

/-- Milliseconds as `event_add` takes them. -/
def timeVal (uiTimeout : UInt32) : TimeVal := ⟨uiTimeout / 1000, uiTimeout % 1000 * 1000⟩

/-- What `event_add` takes: no time at all waits for ever. -/
def timeArgument (uiTimeout : UInt32) : Option TimeVal :=
  if 0 < uiTimeout then some (timeVal uiTimeout) else none

/-- A pending event of libevent: which it is, and its time out. -/
structure Event where
  id : Nat
  armed : Option TimeVal

/-- The four maps, with the ledger of the events made by `event_new`. -/
structure AdEvent where
  write : TreeMap Int Event := ∅
  read : TreeMap Int Event := ∅
  state : TreeMap Int UInt32 := ∅
  timeout : TreeMap Int UInt32 := ∅
  ledger : Ledger := {}

/-- Whether `event_new` finds memory for the two events a call may make. -/
structure EventMemory where
  read : Bool := true
  write : Bool := true

namespace AdEvent

variable (e : AdEvent) (memory : EventMemory) (iSocket : Int) (uiOldFlag uiFlag uiTimeout : UInt32)

def adEventState : UInt32 := (e.state[iSocket]?).getD 0

/-- `event_del`, `event_free` and `erase` for the event that `m_mRead` has. -/
def dropRead : AdEvent :=
  match e.read[iSocket]? with
  | some event => { e with read := e.read.erase iSocket, ledger := e.ledger.free event.id }
  | none => e

/-- The same for `m_mWrite`. -/
def dropWrite : AdEvent :=
  match e.write[iSocket]? with
  | some event => { e with write := e.write.erase iSocket, ledger := e.ledger.free event.id }
  | none => e

/-- The first lines of `AdEventAdd`: `m_mState[iSocket]` enters a zero, the time out is kept. -/
def addTimeout : AdEvent :=
  { e with
    state := e.state.insertIfNew iSocket 0
    timeout := if 0 < uiTimeout then e.timeout.insert iSocket uiTimeout
      else e.timeout.erase iSocket }

/-- The part of `AdEventAdd` for reading. -/
def addRead : Int × AdEvent :=
  if has uiFlag adEventRead then
    if !has uiOldFlag adEventRead then
      if memory.read then
        (adSuccess, { e with
          read := e.read.insert iSocket ⟨e.ledger.made, timeArgument uiTimeout⟩
          ledger := e.ledger.make })
      else (adFailure, e)
    else match e.read[iSocket]? with
      | some event =>
        if 0 < uiTimeout then
          (adSuccess, { e with
            read := e.read.insert iSocket { event with armed := some (timeVal uiTimeout) } })
        else (adSuccess, e)
      | none => (adSuccess, e)
  else if has uiOldFlag adEventRead then (adSuccess, e.dropRead iSocket)
  else (adSuccess, e)

/-- The part of `AdEventAdd` for writing. -/
def addWrite : Int × AdEvent :=
  if has uiFlag adEventWrite then
    if !has uiOldFlag adEventWrite then
      if memory.write then
        (adSuccess, { e with
          write := e.write.insert iSocket ⟨e.ledger.made, none⟩
          ledger := e.ledger.make })
      else (adFailure, e)
    else (adSuccess, e)
  -- the source looks the event up in `m_mRead` here, and erases it there
  else if has uiOldFlag adEventWrite then (adSuccess, e.dropRead iSocket)
  else (adSuccess, e)

def adEventAdd : Int × AdEvent :=
  if uiFlag &&& (adEventRead ||| adEventWrite) = 0 then (adFailure, e)
  else
    let uiOldFlag := e.adEventState iSocket
    let (ret, e) :=
      (e.addTimeout iSocket uiTimeout).addRead memory iSocket uiOldFlag uiFlag uiTimeout
    if ret ≠ adSuccess then (adFailure, e)
    else
      let (ret, e) := e.addWrite memory iSocket uiOldFlag uiFlag
      if ret ≠ adSuccess then (adFailure, e)
      else (adSuccess, { e with state := e.state.insert iSocket uiFlag })

def adEventDel : AdEvent :=
  let e := (e.dropRead iSocket).dropWrite iSocket
  { e with state := e.state.erase iSocket, timeout := e.timeout.erase iSocket }

def adEventModify : Int × AdEvent :=
  let uiOldFlag := e.adEventState iSocket
  let e := { e with state := e.state.insertIfNew iSocket 0 }
  if uiFlag ≠ uiOldFlag then (e.adEventDel iSocket).adEventAdd memory iSocket uiFlag uiTimeout
  else match e.timeout[iSocket]? with
    | some old =>
      if old ≠ uiTimeout then
        (if uiTimeout = 0 then e.adEventDel iSocket else e).adEventAdd memory iSocket uiFlag
          uiTimeout
      else (adSuccess, e)
    | none =>
      if 0 < uiTimeout then (e.adEventDel iSocket).adEventAdd memory iSocket uiFlag uiTimeout
      else (adSuccess, e)

end AdEvent

/-- The calls of the three operations. -/
inductive EventCall where
  | add (memory : EventMemory) (iSocket : Int) (uiFlag uiTimeout : UInt32)
  | modify (memory : EventMemory) (iSocket : Int) (uiFlag uiTimeout : UInt32)
  | del (iSocket : Int)

def call : EventCall → AdEvent → Option AdEvent
  | .add memory s uiFlag uiTimeout, e => some (e.adEventAdd memory s uiFlag uiTimeout).2
  | .modify memory s uiFlag uiTimeout, e => some (e.adEventModify memory s uiFlag uiTimeout).2
  | .del s, e => some (e.adEventDel s)

inductive Side where
  | read | write
  deriving DecidableEq

namespace AdEvent

variable (e : AdEvent) (memory : EventMemory) (s : Int) (uiOldFlag uiFlag uiTimeout : UInt32)

/-- The event that a map has for a socket. -/
def owner : Side × Int → Option Nat
  | (.read, s) => e.read[s]?.map Event.id
  | (.write, s) => e.write[s]?.map Event.id

/-- A change of a map at one socket, where the other map stays. -/
theorem owner_moved {after : AdEvent} {id : Option Nat} (side : Side)
    (own : after.owner (side, s) = id)
    (away : ∀ t, s ≠ t → after.owner (side, t) = e.owner (side, t))
    (others : ∀ other t, other ≠ side → after.owner (other, t) = e.owner (other, t)) :
    after.owner = Function.update e.owner (side, s) id := by
  ext ⟨other, t⟩ : 1
  by_cases same : (other, t) = (side, s)
  · rw [same, Function.update_self, own]
  · rw [Function.update_of_ne same]
    by_cases there : other = side
    · subst there
      exact away t fun equal => same (by rw [equal])
    · exact others other t there

theorem owner_dropRead : (e.dropRead s).owner = Function.update e.owner (.read, s) none := by
  cases found : e.read[s]? with
  | none =>
    have vacant : e.owner (.read, s) = none := by simp [owner, found]
    rw [← vacant, Function.update_eq_self, dropRead, found]
  | some event =>
    rw [dropRead, found]
    apply owner_moved
    · simp [owner]
    · intro t away
      exact congrArg (Option.map Event.id) (getElem?_erase_ne away)
    · rintro (_ | _) t apart
      · exact absurd rfl apart
      · rfl

theorem owner_dropWrite : (e.dropWrite s).owner = Function.update e.owner (.write, s) none := by
  cases found : e.write[s]? with
  | none =>
    have vacant : e.owner (.write, s) = none := by simp [owner, found]
    rw [← vacant, Function.update_eq_self, dropWrite, found]
  | some event =>
    rw [dropWrite, found]
    apply owner_moved
    · simp [owner]
    · intro t away
      exact congrArg (Option.map Event.id) (getElem?_erase_ne away)
    · rintro (_ | _) t apart
      · rfl
      · exact absurd rfl apart

theorem owner_enterRead {event : Event} {l : Ledger} :
    ({ e with read := e.read.insert s event, ledger := l } : AdEvent).owner =
      Function.update e.owner (.read, s) (some event.id) := by
  apply owner_moved
  · simp [owner]
  · intro t away
    exact congrArg (Option.map Event.id) (getElem?_insert_ne away)
  · rintro (_ | _) t apart
    · exact absurd rfl apart
    · rfl

theorem owner_enterWrite {event : Event} {l : Ledger} :
    ({ e with write := e.write.insert s event, ledger := l } : AdEvent).owner =
      Function.update e.owner (.write, s) (some event.id) := by
  apply owner_moved
  · simp [owner]
  · intro t away
    exact congrArg (Option.map Event.id) (getElem?_insert_ne away)
  · rintro (_ | _) t apart
    · rfl
    · exact absurd rfl apart

variable {e} {s}

theorem single_dropRead (single : Single e.ledger e.owner) :
    Single (e.dropRead s).ledger (e.dropRead s).owner := by
  rw [owner_dropRead]
  cases found : e.read[s]? with
  | none =>
    have vacant : e.owner (.read, s) = none := by simp [owner, found]
    rw [← vacant, Function.update_eq_self, dropRead, found]
    exact single
  | some event =>
    rw [dropRead, found]
    exact single.free (by simp [owner, found])

theorem single_dropWrite (single : Single e.ledger e.owner) :
    Single (e.dropWrite s).ledger (e.dropWrite s).owner := by
  rw [owner_dropWrite]
  cases found : e.write[s]? with
  | none =>
    have vacant : e.owner (.write, s) = none := by simp [owner, found]
    rw [← vacant, Function.update_eq_self, dropWrite, found]
    exact single
  | some event =>
    rw [dropWrite, found]
    exact single.free (by simp [owner, found])

theorem single_addRead (single : Single e.ledger e.owner)
    (agree : has uiOldFlag adEventRead ↔ s ∈ e.read) :
    Single (e.addRead memory s uiOldFlag uiFlag uiTimeout).2.ledger
      (e.addRead memory s uiOldFlag uiFlag uiTimeout).2.owner := by
  unfold addRead
  split
  · split
    · next old =>
      have outside : s ∉ e.read := fun inside => by simp [agree.mpr inside] at old
      split
      · rw [owner_enterRead]
        apply single.make
        simp [owner, TreeMap.getElem?_eq_none outside]
      · exact single
    · split
      · next event found =>
        split
        · rw [owner_enterRead]
          have own : some event.id = e.owner (.read, s) := by simp [owner, found]
          rw [own, Function.update_eq_self]
          exact single
        · exact single
      · exact single
  · split
    · exact single_dropRead single
    · exact single

theorem single_addWrite (single : Single e.ledger e.owner)
    (agree : has uiOldFlag adEventWrite ↔ s ∈ e.write) :
    Single (e.addWrite memory s uiOldFlag uiFlag).2.ledger
      (e.addWrite memory s uiOldFlag uiFlag).2.owner := by
  unfold addWrite
  split
  · split
    · next old =>
      have outside : s ∉ e.write := fun inside => by simp [agree.mpr inside] at old
      split
      · rw [owner_enterWrite]
        apply single.make
        simp [owner, TreeMap.getElem?_eq_none outside]
      · exact single
    · exact single
  · split
    · exact single_dropRead single
    · exact single

end AdEvent

namespace AdEvent

variable {e : AdEvent} (memory : EventMemory) {s t : Int} (uiOldFlag uiFlag uiTimeout : UInt32)

theorem dropRead_read : t ∈ (e.dropRead s).read ↔ t ≠ s ∧ t ∈ e.read := by
  cases found : e.read[s]? with
  | none =>
    rw [dropRead, found]
    have outside : s ∉ e.read := by simpa using found
    constructor
    · exact fun inside => ⟨fun same => outside (same ▸ inside), inside⟩
    · exact And.right
  | some event =>
    rw [dropRead, found]
    exact mem_erase_iff

theorem dropWrite_write : t ∈ (e.dropWrite s).write ↔ t ≠ s ∧ t ∈ e.write := by
  cases found : e.write[s]? with
  | none =>
    rw [dropWrite, found]
    have outside : s ∉ e.write := by simpa using found
    constructor
    · exact fun inside => ⟨fun same => outside (same ▸ inside), inside⟩
    · exact And.right
  | some event =>
    rw [dropWrite, found]
    exact mem_erase_iff

theorem dropRead_write : (e.dropRead s).write = e.write := by
  unfold dropRead
  split <;> rfl

theorem dropRead_state : (e.dropRead s).state = e.state := by
  unfold dropRead
  split <;> rfl

theorem dropRead_timeout : (e.dropRead s).timeout = e.timeout := by
  unfold dropRead
  split <;> rfl

theorem dropWrite_read : (e.dropWrite s).read = e.read := by
  unfold dropWrite
  split <;> rfl

/-- `m_mState[iSocket]` of a socket that is not there enters a zero. -/
theorem adEventState_entered :
    { e with state := e.state.insertIfNew s 0 }.adEventState t = e.adEventState t := by
  simp only [adEventState, TreeMap.getElem?_insertIfNew]
  split
  · next absent =>
    have same := Std.compare_eq_iff_eq.mp absent.1
    rw [TreeMap.getElem?_eq_none]
    · rfl
    · exact same ▸ absent.2
  · rfl

variable {uiTimeout} in
theorem adEventState_addTimeout : (e.addTimeout s uiTimeout).adEventState t = e.adEventState t :=
  adEventState_entered

theorem addRead_rest :
    (e.addRead memory s uiOldFlag uiFlag uiTimeout).2.write = e.write ∧
      (e.addRead memory s uiOldFlag uiFlag uiTimeout).2.state = e.state ∧
      (e.addRead memory s uiOldFlag uiFlag uiTimeout).2.timeout = e.timeout := by
  unfold addRead
  split
  · split
    · split <;> exact ⟨rfl, rfl, rfl⟩
    · split
      · split <;> exact ⟨rfl, rfl, rfl⟩
      · exact ⟨rfl, rfl, rfl⟩
  · split
    · exact ⟨dropRead_write, dropRead_state, dropRead_timeout⟩
    · exact ⟨rfl, rfl, rfl⟩

theorem addWrite_rest :
    (e.addWrite memory s uiOldFlag uiFlag).2.state = e.state ∧
      (e.addWrite memory s uiOldFlag uiFlag).2.timeout = e.timeout := by
  unfold addWrite
  split
  · split
    · split <;> exact ⟨rfl, rfl⟩
    · exact ⟨rfl, rfl⟩
  · split
    · exact ⟨dropRead_state, dropRead_timeout⟩
    · exact ⟨rfl, rfl⟩

/-- There is no memory for an event that has to be made. -/
def Lacks (found : Bool) (uiOldFlag uiFlag bit : UInt32) : Prop :=
  has uiFlag bit ∧ !has uiOldFlag bit ∧ !found

instance (found : Bool) : Decidable (Lacks found uiOldFlag uiFlag bit) :=
  inferInstanceAs (Decidable (_ ∧ _ ∧ _))

variable {uiOldFlag} in
theorem addRead_cases (agree : has uiOldFlag adEventRead ↔ s ∈ e.read) :
    (Lacks memory.read uiOldFlag uiFlag adEventRead ∧
      e.addRead memory s uiOldFlag uiFlag uiTimeout = (adFailure, e)) ∨
    ∃ after, ¬ Lacks memory.read uiOldFlag uiFlag adEventRead ∧
      e.addRead memory s uiOldFlag uiFlag uiTimeout = (adSuccess, after) ∧
      (s ∈ after.read ↔ has uiFlag adEventRead) := by
  unfold addRead Lacks
  by_cases wanted : has uiFlag adEventRead
  · by_cases old : has uiOldFlag adEventRead
    · have inside := agree.mp old
      simp only [wanted, old, if_true, Bool.not_true, Bool.false_eq_true, if_false]
      cases found : e.read[s]? with
      | none => exact Or.inr ⟨e, by simp, rfl, by simp [inside]⟩
      | some event =>
        by_cases timed : 0 < uiTimeout
        · exact Or.inr ⟨_, by simp, by simp only [timed, if_true]; rfl, by simp⟩
        · exact Or.inr ⟨e, by simp, by simp [timed], by simp [inside]⟩
    · cases room : memory.read with
      | true => exact Or.inr ⟨_, by simp, by simp [wanted, old]; rfl, by simp [wanted]⟩
      | false => exact Or.inl ⟨by simp [wanted, old], by simp [wanted, old]⟩
  · by_cases old : has uiOldFlag adEventRead
    · exact Or.inr ⟨e.dropRead s, by simp [wanted], by simp [wanted, old], by
        simp [dropRead_read, wanted]⟩
    · have outside := mt agree.mpr old
      exact Or.inr ⟨e, by simp [wanted], by simp [wanted, old], by simp [wanted, outside]⟩

variable {uiOldFlag} in
theorem addWrite_cases (agree : has uiOldFlag adEventWrite ↔ s ∈ e.write) :
    (Lacks memory.write uiOldFlag uiFlag adEventWrite ∧
      e.addWrite memory s uiOldFlag uiFlag = (adFailure, e)) ∨
    ∃ after, ¬ Lacks memory.write uiOldFlag uiFlag adEventWrite ∧
      e.addWrite memory s uiOldFlag uiFlag = (adSuccess, after) ∧
      (s ∈ after.read ↔ s ∈ e.read ∧ (has uiOldFlag adEventWrite → has uiFlag adEventWrite)) ∧
      (s ∈ after.write ↔ has uiOldFlag adEventWrite ∨ has uiFlag adEventWrite) := by
  unfold addWrite Lacks
  by_cases wanted : has uiFlag adEventWrite
  · by_cases old : has uiOldFlag adEventWrite
    · have inside := agree.mp old
      exact Or.inr
        ⟨e, by simp [old], by simp [wanted, old], by simp [wanted], by simp [old, inside]⟩
    · cases room : memory.write with
      | true =>
        exact Or.inr ⟨_, by simp, by simp [wanted, old]; rfl, by simp [wanted], by simp [wanted]⟩
      | false => exact Or.inl ⟨by simp [wanted, old], by simp [wanted, old]⟩
  · by_cases old : has uiOldFlag adEventWrite
    · have inside := agree.mp old
      exact Or.inr ⟨e.dropRead s, by simp [wanted], by simp [wanted, old],
        by simp [dropRead_read, wanted, old], by simp [dropRead_write, old, inside]⟩
    · have outside := mt agree.mpr old
      exact Or.inr ⟨e, by simp [wanted], by simp [wanted, old], by simp [old],
        by simp [wanted, old, outside]⟩

variable {uiTimeout} in
theorem mem_timeout_addTimeout : s ∈ (e.addTimeout s uiTimeout).timeout ↔ 0 < uiTimeout := by
  unfold addTimeout
  by_cases timed : 0 < uiTimeout
  · simp [timed]
  · simp [timed]

end AdEvent

/-- The maps have for a socket what its flags say, and a time out for a registered one only. -/
structure InStepAt (e : AdEvent) (s : Int) : Prop where
  read : has (e.adEventState s) adEventRead ↔ s ∈ e.read
  write : has (e.adEventState s) adEventWrite ↔ s ∈ e.write
  timeout : s ∈ e.timeout →
    has (e.adEventState s) adEventRead ∨ has (e.adEventState s) adEventWrite

/-- An addition to a socket with these flags leaves its maps in step: it does not give up the
interest in writing, and memory does not run out where the maps or the time out are ahead of
the flags. -/
def AddKept (memory : EventMemory) (uiOldFlag uiFlag uiTimeout : UInt32) : Prop :=
  (¬ has uiFlag adEventRead ∧ ¬ has uiFlag adEventWrite) ∨
  if AdEvent.Lacks memory.read uiOldFlag uiFlag adEventRead then
    0 < uiTimeout → has uiOldFlag adEventWrite
  else if AdEvent.Lacks memory.write uiOldFlag uiFlag adEventWrite then
    (has uiOldFlag adEventRead ↔ has uiFlag adEventRead) ∧
      (0 < uiTimeout → has uiOldFlag adEventRead)
  else has uiOldFlag adEventWrite → has uiFlag adEventWrite

theorem has_neither {flags : UInt32} : flags &&& (adEventRead ||| adEventWrite) = 0 ↔
    ¬ has flags adEventRead ∧ ¬ has flags adEventWrite := by
  have split : flags &&& (adEventRead ||| adEventWrite) =
      (flags &&& adEventRead) ||| (flags &&& adEventWrite) := by
    apply UInt32.toBitVec_inj.mp
    simp only [UInt32.toBitVec_and, UInt32.toBitVec_or]
    ext i
    simp [Bool.and_or_distrib_left]
  rw [split, UInt32.or_eq_zero_iff]
  simp [has]

namespace AdEvent

variable {e : AdEvent} (memory : EventMemory) {s t : Int} (uiOldFlag uiFlag uiTimeout : UInt32)

/-- The four ways a call of `AdEventAdd` can go. -/
theorem adEventAdd_cases (inStep : InStepAt e s) :
    (uiFlag &&& (adEventRead ||| adEventWrite) = 0 ∧
      e.adEventAdd memory s uiFlag uiTimeout = (adFailure, e)) ∨
    (uiFlag &&& (adEventRead ||| adEventWrite) ≠ 0 ∧
      Lacks memory.read (e.adEventState s) uiFlag adEventRead ∧
      e.adEventAdd memory s uiFlag uiTimeout = (adFailure, e.addTimeout s uiTimeout)) ∨
    (uiFlag &&& (adEventRead ||| adEventWrite) ≠ 0 ∧
      ¬ Lacks memory.read (e.adEventState s) uiFlag adEventRead ∧
      Lacks memory.write (e.adEventState s) uiFlag adEventWrite ∧
      ∃ after, e.adEventAdd memory s uiFlag uiTimeout = (adFailure, after) ∧
        (s ∈ after.read ↔ has uiFlag adEventRead) ∧ after.write = e.write ∧
        after.adEventState s = e.adEventState s ∧ (s ∈ after.timeout ↔ 0 < uiTimeout)) ∨
    (uiFlag &&& (adEventRead ||| adEventWrite) ≠ 0 ∧
      ¬ Lacks memory.read (e.adEventState s) uiFlag adEventRead ∧
      ¬ Lacks memory.write (e.adEventState s) uiFlag adEventWrite ∧
      ∃ after, e.adEventAdd memory s uiFlag uiTimeout = (adSuccess, after) ∧
        (s ∈ after.read ↔ has uiFlag adEventRead ∧
          (has (e.adEventState s) adEventWrite → has uiFlag adEventWrite)) ∧
        (s ∈ after.write ↔ has (e.adEventState s) adEventWrite ∨ has uiFlag adEventWrite) ∧
        after.adEventState s = uiFlag ∧ (s ∈ after.timeout ↔ 0 < uiTimeout)) := by
  unfold adEventAdd
  have failure : adFailure ≠ adSuccess := by decide
  have success : ¬ adSuccess ≠ adSuccess := by decide
  by_cases neither : uiFlag &&& (adEventRead ||| adEventWrite) = 0
  · exact Or.inl ⟨neither, if_pos neither⟩
  simp only [if_neg neither]
  have timed : s ∈ (e.addTimeout s uiTimeout).timeout ↔ 0 < uiTimeout := mem_timeout_addTimeout
  have flags : (e.addTimeout s uiTimeout).adEventState s = e.adEventState s :=
    adEventState_addTimeout
  have sameWrite : (e.addTimeout s uiTimeout).write = e.write := rfl
  have agreeRead : has (e.adEventState s) adEventRead ↔ s ∈ (e.addTimeout s uiTimeout).read :=
    inStep.read
  have agreeWrite := inStep.write
  rcases addRead_cases memory uiFlag uiTimeout agreeRead with
    ⟨lacks, failed⟩ | ⟨reading, room, read, inside⟩
  · exact Or.inr (Or.inl ⟨neither, lacks, by simp only [failed, if_pos failure]⟩)
  refine Or.inr (Or.inr ?_)
  obtain ⟨write, state, timeout⟩ := addRead_rest (e := e.addTimeout s uiTimeout) memory
    (s := s) (e.adEventState s) uiFlag uiTimeout
  simp only [read] at write state timeout ⊢
  simp only [if_neg success]
  rw [← timeout] at timed
  have flags' : reading.adEventState s = e.adEventState s := by
    rw [← flags, adEventState, adEventState, state]
  rw [← sameWrite, ← write] at agreeWrite
  rcases addWrite_cases memory uiFlag agreeWrite with
    ⟨lacks, failed⟩ | ⟨after, room', wrote, insideRead, insideWrite⟩
  · refine Or.inl ⟨neither, room, lacks, reading, by simp only [failed, if_pos failure], inside, ?_,
      flags', timed⟩
    rw [write, sameWrite]
  · obtain ⟨-, timeout'⟩ := addWrite_rest (e := reading) memory (s := s)
      (e.adEventState s) uiFlag
    rw [wrote] at timeout'
    refine Or.inr ⟨neither, room, room', { after with state := after.state.insert s uiFlag },
      by simp only [wrote, if_neg success], ?_, insideWrite, ?_, ?_⟩
    · rw [← inside]
      exact insideRead
    · simp [adEventState]
    · rw [← timed, ← timeout']

/-- An addition keeps its socket in step exactly under `AddKept`. -/
theorem adEventAdd_at (inStep : InStepAt e s) :
    InStepAt (e.adEventAdd memory s uiFlag uiTimeout).2 s ↔
      AddKept memory (e.adEventState s) uiFlag uiTimeout := by
  unfold AddKept
  rw [← has_neither]
  rcases adEventAdd_cases memory uiFlag uiTimeout inStep with
    ⟨neither, done⟩ | ⟨some, lacks, done⟩ |
    ⟨some, room, lacks, after, done, read, write, flags, timed⟩ |
    ⟨some, room, room', after, done, read, write, flags, timed⟩
  · rw [done]
    exact iff_of_true inStep (Or.inl neither)
  · -- the time out is in place, the flags and the events are as before
    rw [done, or_iff_right some, if_pos lacks]
    constructor
    · intro after soon
      have registered := after.timeout (mem_timeout_addTimeout.mpr soon)
      rw [adEventState_addTimeout] at registered
      exact registered.resolve_left (by simpa using lacks.2.1)
    · intro kept
      constructor
      · rw [adEventState_addTimeout]
        exact inStep.read
      · rw [adEventState_addTimeout]
        exact inStep.write
      · rw [adEventState_addTimeout, mem_timeout_addTimeout]
        exact fun soon => Or.inr (kept soon)
  · -- the event for reading is as the new flags say, the flags are the old ones
    have noWrite : ¬ has (e.adEventState s) adEventWrite := by simpa using lacks.2.1
    rw [done, or_iff_right some, if_neg room, if_pos lacks]
    constructor
    · intro kept
      have agree := kept.read
      have soon := kept.timeout
      rw [flags, read] at agree
      rw [flags, timed] at soon
      exact ⟨agree, fun time => (soon time).resolve_right noWrite⟩
    · rintro ⟨agree, soon⟩
      constructor
      · rw [flags, read, agree]
      · rw [flags, write]
        exact inStep.write
      · rw [flags, timed]
        exact fun time => Or.inl (soon time)
  · rw [done, or_iff_right some, if_neg room, if_neg room']
    constructor
    · intro kept old
      have agree := kept.write
      rw [flags, write] at agree
      exact agree.mpr (Or.inl old)
    · intro kept
      constructor
      · rw [flags, read]
        exact (and_iff_left kept).symm
      · rw [flags, write]
        exact (or_iff_right_of_imp kept).symm
      · intro _
        rw [flags]
        by_contra neither
        exact some (has_neither.mpr (not_or.mp neither))

theorem single_adEventAdd (inStep : InStepAt e s) (single : Single e.ledger e.owner) :
    Single (e.adEventAdd memory s uiFlag uiTimeout).2.ledger
      (e.adEventAdd memory s uiFlag uiTimeout).2.owner := by
  unfold adEventAdd
  split
  · exact single
  · have reading : Single ((e.addTimeout s uiTimeout).addRead memory s (e.adEventState s) uiFlag
        uiTimeout).2.ledger _ := single_addRead memory _ uiFlag uiTimeout single inStep.read
    have same := (addRead_rest (e := e.addTimeout s uiTimeout) memory (s := s) (e.adEventState s)
      uiFlag uiTimeout).1
    dsimp only
    generalize (e.addTimeout s uiTimeout).addRead memory s (e.adEventState s) uiFlag uiTimeout =
      result at reading same
    split
    · exact reading
    · have writing := single_addWrite memory (e.adEventState s) uiFlag reading (s := s)
        (by rw [same]; exact inStep.write)
      split
      · exact writing
      · exact writing

theorem single_adEventDel (single : Single e.ledger e.owner) :
    Single (e.adEventDel s).ledger (e.adEventDel s).owner :=
  single_dropWrite (single_dropRead single)

theorem adEventDel_at : InStepAt (e.adEventDel s) s ∧ (e.adEventDel s).adEventState s = 0 := by
  have flags : (e.adEventDel s).adEventState s = 0 := by simp [adEventDel, adEventState]
  refine ⟨⟨?_, ?_, ?_⟩, flags⟩
  · rw [flags, adEventDel, dropWrite_read, dropRead_read]
    simp [has]
  · rw [flags, adEventDel, dropWrite_write]
    simp [has]
  · simp [adEventDel]

/-- A call of `AdEventModify` that registers the socket anew. -/
def Renews (e : AdEvent) (s : Int) (uiFlag uiTimeout : UInt32) : Prop :=
  uiFlag ≠ e.adEventState s ∨
    match e.timeout[s]? with
    | some old => old ≠ uiTimeout ∧ uiTimeout = 0
    | none => 0 < uiTimeout

/-- The three ways a call of `AdEventModify` can go: nothing to do, a new time out, or a new
registration. The `m_mState[iSocket]` of its first line enters a zero. -/
theorem adEventModify_cases :
    let entered := { e with state := e.state.insertIfNew s 0 }
    (e.Renews s uiFlag uiTimeout ∧ e.adEventModify memory s uiFlag uiTimeout =
      (entered.adEventDel s).adEventAdd memory s uiFlag uiTimeout) ∨
    (¬ e.Renews s uiFlag uiTimeout ∧ uiFlag = e.adEventState s ∧
      (e.adEventModify memory s uiFlag uiTimeout = (adSuccess, entered) ∨
        e.adEventModify memory s uiFlag uiTimeout =
          entered.adEventAdd memory s uiFlag uiTimeout)) := by
  unfold adEventModify Renews
  dsimp only
  by_cases other : uiFlag = e.adEventState s
  · simp only [other, ne_eq, not_true_eq_false, if_false, false_or]
    cases known : e.timeout[s]? with
    | none =>
      by_cases timed : 0 < uiTimeout
      · exact Or.inl ⟨timed, by simp [timed]⟩
      · exact Or.inr ⟨timed, trivial, Or.inl (by simp [timed])⟩
    | some old =>
      by_cases same : old = uiTimeout
      · exact Or.inr ⟨fun renews => renews.1 same, trivial, Or.inl (by simp [same])⟩
      · by_cases zero : uiTimeout = 0
        · exact Or.inl ⟨⟨same, zero⟩, by subst zero; simp [same]⟩
        · exact Or.inr ⟨fun renews => zero renews.2, trivial, Or.inr (by simp [same, zero])⟩
  · exact Or.inl ⟨Or.inl other, by simp [other]⟩

/-- A zero that is entered for a socket keeps it in step. -/
theorem inStepAt_entered (inStep : InStepAt e s) :
    InStepAt { e with state := e.state.insertIfNew s 0 } s := by
  have flags := adEventState_entered (e := e) (s := s) (t := s)
  constructor
  · rw [flags]
    exact inStep.read
  · rw [flags]
    exact inStep.write
  · rw [flags]
    exact inStep.timeout

/-- A modification keeps its socket in step exactly when it adds nothing, or adds to a socket
without flags under `AddKept`. -/
theorem adEventModify_at (inStep : InStepAt e s) :
    InStepAt (e.adEventModify memory s uiFlag uiTimeout).2 s ↔
      (e.Renews s uiFlag uiTimeout → AddKept memory 0 uiFlag uiTimeout) := by
  have flags := adEventState_entered (e := e) (s := s) (t := s)
  have entered := inStepAt_entered inStep
  rcases adEventModify_cases (e := e) memory (s := s) uiFlag uiTimeout with
    ⟨renews, done⟩ | ⟨keeps, same, done | done⟩
  · have deleted := adEventDel_at (e := { e with state := e.state.insertIfNew s 0 }) (s := s)
    rw [done, adEventAdd_at memory uiFlag uiTimeout deleted.1, deleted.2]
    exact ⟨fun kept _ => kept, fun kept => kept renews⟩
  · rw [done]
    exact iff_of_true entered fun renews => absurd renews keeps
  · rw [done, adEventAdd_at memory uiFlag uiTimeout entered, flags, ← same]
    refine iff_of_true (Or.inr ?_) fun renews => absurd renews keeps
    have none : ∀ found bit, ¬ Lacks found uiFlag uiFlag bit := by
      intro found bit lacks
      simpa [lacks.1] using lacks.2.1
    rw [if_neg (none _ _), if_neg (none _ _)]
    exact id

theorem single_adEventModify (inStep : InStepAt e s) (single : Single e.ledger e.owner) :
    Single (e.adEventModify memory s uiFlag uiTimeout).2.ledger
      (e.adEventModify memory s uiFlag uiTimeout).2.owner := by
  rcases adEventModify_cases (e := e) memory (s := s) uiFlag uiTimeout with
    ⟨renews, done⟩ | ⟨keeps, same, done | done⟩
  · rw [done]
    apply single_adEventAdd memory uiFlag uiTimeout adEventDel_at.1
    apply single_adEventDel
    exact single
  · rw [done]
    exact single
  · rw [done]
    apply single_adEventAdd
    · exact inStepAt_entered inStep
    · exact single

end AdEvent

/-- Two tables that differ at one socket only. -/
structure Elsewhere (s : Int) (e e' : AdEvent) : Prop where
  read : ∀ t ≠ s, e'.read[t]? = e.read[t]?
  write : ∀ t ≠ s, e'.write[t]? = e.write[t]?
  state : ∀ t ≠ s, e'.state[t]? = e.state[t]?
  timeout : ∀ t ≠ s, e'.timeout[t]? = e.timeout[t]?

namespace Elsewhere

variable {s t : Int} {e e' e'' : AdEvent}

theorem refl (s : Int) (e : AdEvent) : Elsewhere s e e :=
  ⟨fun _ _ => rfl, fun _ _ => rfl, fun _ _ => rfl, fun _ _ => rfl⟩

theorem trans (one : Elsewhere s e e') (two : Elsewhere s e' e'') : Elsewhere s e e'' := by
  constructor
  · exact fun t away => (two.read t away).trans (one.read t away)
  · exact fun t away => (two.write t away).trans (one.write t away)
  · exact fun t away => (two.state t away).trans (one.state t away)
  · exact fun t away => (two.timeout t away).trans (one.timeout t away)

theorem adEventState (same : Elsewhere s e e') (away : t ≠ s) :
    e'.adEventState t = e.adEventState t := by
  unfold AdEvent.adEventState
  rw [same.state t away]

theorem inStepAt (same : Elsewhere s e e') (away : t ≠ s) : InStepAt e' t ↔ InStepAt e t := by
  have flags := same.adEventState away
  have read : t ∈ e'.read ↔ t ∈ e.read := by
    rw [TreeMap.mem_iff_isSome_getElem?, same.read t away, ← TreeMap.mem_iff_isSome_getElem?]
  have write : t ∈ e'.write ↔ t ∈ e.write := by
    rw [TreeMap.mem_iff_isSome_getElem?, same.write t away, ← TreeMap.mem_iff_isSome_getElem?]
  have timeout : t ∈ e'.timeout ↔ t ∈ e.timeout := by
    rw [TreeMap.mem_iff_isSome_getElem?, same.timeout t away, ← TreeMap.mem_iff_isSome_getElem?]
  constructor
  · intro at_t
    have registered := at_t.timeout
    rw [flags, timeout] at registered
    refine ⟨?_, ?_, registered⟩
    · rw [← flags, ← read]
      exact at_t.read
    · rw [← flags, ← write]
      exact at_t.write
  · intro at_t
    refine ⟨?_, ?_, ?_⟩
    · rw [flags, read]
      exact at_t.read
    · rw [flags, write]
      exact at_t.write
    · rw [flags, timeout]
      exact at_t.timeout

end Elsewhere

namespace AdEvent

variable {e : AdEvent} (memory : EventMemory) {s : Int} (uiOldFlag uiFlag uiTimeout : UInt32)

theorem elsewhere_dropRead : Elsewhere s e (e.dropRead s) := by
  unfold dropRead
  split
  · exact ⟨fun t away => getElem?_erase_ne away.symm, fun _ _ => rfl, fun _ _ => rfl,
      fun _ _ => rfl⟩
  · exact .refl s e

theorem elsewhere_dropWrite : Elsewhere s e (e.dropWrite s) := by
  unfold dropWrite
  split
  · exact ⟨fun _ _ => rfl, fun t away => getElem?_erase_ne away.symm, fun _ _ => rfl,
      fun _ _ => rfl⟩
  · exact .refl s e

theorem elsewhere_entered : Elsewhere s e { e with state := e.state.insertIfNew s 0 } := by
  refine ⟨fun _ _ => rfl, fun _ _ => rfl, fun t away => ?_, fun _ _ => rfl⟩
  rw [TreeMap.getElem?_insertIfNew, if_neg]
  exact fun absent => away (Std.compare_eq_iff_eq.mp absent.1).symm

theorem elsewhere_addTimeout : Elsewhere s e (e.addTimeout s uiTimeout) := by
  refine ⟨fun _ _ => rfl, fun _ _ => rfl, elsewhere_entered.state, fun t away => ?_⟩
  unfold addTimeout
  dsimp only
  split
  · exact getElem?_insert_ne away.symm
  · exact getElem?_erase_ne away.symm

theorem elsewhere_addRead :
    Elsewhere s e (e.addRead memory s uiOldFlag uiFlag uiTimeout).2 := by
  unfold addRead
  split
  · split
    · split
      · exact ⟨fun t away => getElem?_insert_ne away.symm, fun _ _ => rfl, fun _ _ => rfl,
          fun _ _ => rfl⟩
      · exact .refl s e
    · split
      · split
        · exact ⟨fun t away => getElem?_insert_ne away.symm, fun _ _ => rfl, fun _ _ => rfl,
            fun _ _ => rfl⟩
        · exact .refl s e
      · exact .refl s e
  · split
    · exact elsewhere_dropRead
    · exact .refl s e

theorem elsewhere_addWrite : Elsewhere s e (e.addWrite memory s uiOldFlag uiFlag).2 := by
  unfold addWrite
  split
  · split
    · split
      · exact ⟨fun _ _ => rfl, fun t away => getElem?_insert_ne away.symm, fun _ _ => rfl,
          fun _ _ => rfl⟩
      · exact .refl s e
    · exact .refl s e
  · split
    · exact elsewhere_dropRead
    · exact .refl s e

theorem elsewhere_adEventAdd : Elsewhere s e (e.adEventAdd memory s uiFlag uiTimeout).2 := by
  unfold adEventAdd
  split
  · exact .refl s e
  · have read := (elsewhere_addTimeout uiTimeout).trans
      (elsewhere_addRead (e := e.addTimeout s uiTimeout)
      memory (e.adEventState s) uiFlag uiTimeout)
    dsimp only
    generalize (e.addTimeout s uiTimeout).addRead memory s (e.adEventState s) uiFlag uiTimeout =
      result at read
    split
    · exact read
    · have written := read.trans (elsewhere_addWrite memory (e.adEventState s) uiFlag)
      split
      · exact written
      · refine written.trans ⟨fun _ _ => rfl, fun _ _ => rfl, fun t away => ?_, fun _ _ => rfl⟩
        exact getElem?_insert_ne away.symm

theorem elsewhere_adEventDel : Elsewhere s e (e.adEventDel s) := by
  apply elsewhere_dropRead.trans
  apply elsewhere_dropWrite.trans
  exact ⟨fun _ _ => rfl, fun _ _ => rfl, fun t away => getElem?_erase_ne away.symm,
    fun t away => getElem?_erase_ne away.symm⟩

theorem elsewhere_adEventModify :
    Elsewhere s e (e.adEventModify memory s uiFlag uiTimeout).2 := by
  rcases adEventModify_cases (e := e) memory (s := s) uiFlag uiTimeout with
    ⟨-, done⟩ | ⟨-, -, done | done⟩
  · rw [done]
    exact elsewhere_entered.trans
      (elsewhere_adEventDel.trans (elsewhere_adEventAdd memory uiFlag uiTimeout))
  · rw [done]
    exact elsewhere_entered
  · rw [done]
    exact elsewhere_entered.trans (elsewhere_adEventAdd memory uiFlag uiTimeout)

end AdEvent

/-- The maps agree on every socket, and each event made was freed once or is in one of them. -/
structure Registered (e : AdEvent) : Prop where
  sockets : ∀ s, InStepAt e s
  once : e.ledger.freed.Nodup
  kept : ∀ id < e.ledger.made, id ∈ e.ledger.freed ∨ ∃ slot, e.owner slot = some id

/-- The invariant: besides, no event that is freed is left in a map. -/
structure InStep (e : AdEvent) : Prop where
  sockets : ∀ s, InStepAt e s
  events : Single e.ledger e.owner

/-- When a call keeps the table in step. -/
def CallKept : EventCall → AdEvent → Prop
  | .add memory s uiFlag uiTimeout, e => AddKept memory (e.adEventState s) uiFlag uiTimeout
  | .modify memory s uiFlag uiTimeout, e =>
    e.Renews s uiFlag uiTimeout → AddKept memory 0 uiFlag uiTimeout
  | .del _, _ => True

variable {e after : AdEvent} {c : EventCall}

theorem InStep.registered (inStep : InStep e) : Registered e := by
  refine ⟨inStep.sockets, inStep.events.clear.once, fun id made => ?_⟩
  exact (inStep.events.clear.known id).mp made

theorem inStep_fresh : InStep {} := by
  constructor
  · intro s
    constructor <;> simp [AdEvent.adEventState, has]
  · have none : ({} : AdEvent).owner = fun _ => Option.none := by
      ext ⟨side, s⟩ : 1
      cases side <;> simp [AdEvent.owner]
    rw [none]
    exact single_empty

/-- A table that has changed at one socket is in step when it is at that socket. -/
theorem InStep.of_elsewhere {s : Int} (inStep : InStep e) (same : Elsewhere s e after)
    (here : InStepAt after s) (events : Single after.ledger after.owner) : InStep after := by
  refine ⟨fun t => ?_, events⟩
  by_cases at_s : t = s
  · exact at_s ▸ here
  · exact (same.inStepAt at_s).mpr (inStep.sockets t)

theorem inStep_call (inStep : InStep e) (kept : CallKept c e) (called : call c e = some after) :
    InStep after := by
  cases c with
  | add memory s uiFlag uiTimeout =>
    obtain rfl := Option.some.inj called
    have at_s := inStep.sockets s
    apply inStep.of_elsewhere (AdEvent.elsewhere_adEventAdd memory uiFlag uiTimeout)
    · exact (AdEvent.adEventAdd_at memory uiFlag uiTimeout at_s).mpr kept
    · exact AdEvent.single_adEventAdd memory uiFlag uiTimeout at_s inStep.events
  | modify memory s uiFlag uiTimeout =>
    obtain rfl := Option.some.inj called
    have at_s := inStep.sockets s
    apply inStep.of_elsewhere (AdEvent.elsewhere_adEventModify memory uiFlag uiTimeout)
    · exact (AdEvent.adEventModify_at memory uiFlag uiTimeout at_s).mpr kept
    · exact AdEvent.single_adEventModify memory uiFlag uiTimeout at_s inStep.events
  | del s =>
    obtain rfl := Option.some.inj called
    apply inStep.of_elsewhere AdEvent.elsewhere_adEventDel
    · exact AdEvent.adEventDel_at.1
    · exact AdEvent.single_adEventDel inStep.events

theorem callKept_of_registered (inStep : InStep e) (called : call c e = some after)
    (registered : Registered after) : CallKept c e := by
  cases c with
  | add memory s uiFlag uiTimeout =>
    obtain rfl := Option.some.inj called
    exact (AdEvent.adEventAdd_at memory uiFlag uiTimeout (inStep.sockets s)).mp
      (registered.sockets s)
  | modify memory s uiFlag uiTimeout =>
    obtain rfl := Option.some.inj called
    exact (AdEvent.adEventModify_at memory uiFlag uiTimeout (inStep.sockets s)).mp
      (registered.sockets s)
  | del s => trivial

/-- The table stays in step along a run exactly when each of its calls keeps it so. -/
theorem registered_iff (calls : List EventCall) :
    (∀ e ∈ StepRuns.states call {} calls, Registered e) ↔
      StepRuns.Throughout call CallKept {} calls := by
  apply StepRuns.states_iff_invariant
  · intro c e after inStep called registered
    exact callKept_of_registered inStep called registered
  · intro c e after inStep kept called
    exact inStep_call inStep kept called
  · exact fun e inStep => inStep.registered
  · exact inStep_fresh

/-- A socket that is registered for both and then for reading loses its event for reading. -/
def readAgain : List EventCall :=
  [.add {} 5 (adEventRead ||| adEventWrite) 0, .add {} 5 adEventRead 0]

theorem readAgain_deaf : ¬ ∀ e ∈ StepRuns.states call {} readAgain, Registered e := by
  intro all
  have last := (all ((({} : AdEvent).adEventAdd {} 5 (adEventRead ||| adEventWrite) 0).2.adEventAdd
    {} 5 adEventRead 0).2 (.tail _ (.tail _ (.head _)))).sockets 5
  exact absurd (last.read.mp (by decide)) (by decide)

end EventTable
