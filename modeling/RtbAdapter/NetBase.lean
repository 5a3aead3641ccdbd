import RtbAdapter.EventTable
import RtbAdapter.NetSession
import RtbAdapter.RingBuffer

/-!
# The network base

`AdNetBase` with its maps of sessions and the event table under it. A message for a
task only raises the count of its session here. Beside the base stands what becomes
of each session from `AdNetBaseNewSession` to `AdNetBaseDeleteSession`.
-/

namespace NetBase

open ByteWords EventTable NetSession RingBuffer Std
open NetProtocol (adSuccess adFailure)

def adTaskSessionMax : Nat := 1024 * 32

/-- A session as `AdNetBaseDeleteSession` gets it: whether it was in use, what it counted, whether
it was ever registered and when it was closed in this life, and the time. -/
structure GivenBack where
  pSession : Nat
  alive : Bool
  active : UInt32
  registered : Bool
  closed : Option Int
  now : Int

/-- The lives of the sessions. A session that is used after its life strays. -/
structure Lives where
  alive : Nat → Bool := fun _ => false
  registered : Nat → Bool := fun _ => false
  closed : Nat → Option Int := fun _ => none
  givenBack : List GivenBack := []
  strays : List Nat := []

structure AdNetBase where
  event : AdEvent := {}
  session : Nat → AdSession := fun _ => {}
  iServer : Int := adFailure
  sessionRead : TreeMap Int Nat := ∅
  sessionWrite : TreeMap Int Nat := ∅
  sessionClose : TreeSet Nat := ∅
  sessionCloseTime : List (Int × Nat) := []
  sessionFree : List Nat := []
  sessionNew : List Nat := []
  msgControl : List Nat := []
  time : Int := 0
  lives : Lives := {}

/-- What memory and the kernel do for one of the calls of a turn. -/
structure Outcomes where
  memory : EventMemory := {}
  closes : Bool := true

/-- The calls of a turn of the loop, each counted from its first: for new sessions, for control
messages, for sessions that write and for closed ones. -/
structure Turn where
  clock : Int
  new : Nat → Outcomes := fun _ => {}
  control : Nat → Outcomes := fun _ => {}
  write : Nat → Outcomes := fun _ => {}
  close : Nat → Outcomes := fun _ => {}

/-- The outcomes from the second call on. -/
def later (calls : Nat → Outcomes) (i : Nat) : Outcomes := calls (i + 1)

namespace AdNetBase

variable (b : AdNetBase) (outcomes : Outcomes) (pSession : Nat) (iSocket : Int)

def setSession (s : AdSession) : AdNetBase :=
  { b with session := Function.update b.session pSession s }

/-- A session is used. -/
def touch : AdNetBase :=
  if b.lives.alive pSession then b
  else { b with lives := { b.lives with strays := pSession :: b.lives.strays } }

def begin : AdNetBase :=
  { b with
    lives := { b.lives with
      alive := Function.update b.lives.alive pSession true
      registered := Function.update b.lives.registered pSession false
      closed := Function.update b.lives.closed pSession none } }

/-- With no free session `new` finds memory at `fresh`, which no session in use has. -/
def adNetBaseNewSession (fresh : Option Nat) : Option (Option Nat × AdNetBase) :=
  match tryPop b.sessionFree with
  | some (pSession, sessionFree) => some (some pSession, { b with sessionFree }.begin pSession)
  | none => match fresh with
    | none => some (none, b)
    | some pSession =>
      if b.lives.alive pSession then none
      else some (some pSession, (b.setSession pSession {}).begin pSession)

def adNetBaseDeleteSession : AdNetBase :=
  { b with
    sessionFree := (tryPush adTaskSessionMax b.sessionFree pSession).getD b.sessionFree
    lives := { b.lives with
      alive := Function.update b.lives.alive pSession false
      givenBack := b.lives.givenBack ++ [{
        pSession
        alive := b.lives.alive pSession
        active := (b.session pSession).uiActive
        registered := b.lives.registered pSession
        closed := b.lives.closed pSession
        now := b.time }] } }

/-- `AdNetBasePushMsg`, as far as the session goes. -/
def adNetBasePushMsg : AdNetBase :=
  (b.touch pSession).setSession pSession (b.session pSession).adSessionActive

/-- A session that is registered for its socket leaves the maps and the event table. The
`AdNetBaseSessionReconnect` of `AdNetBase` does nothing. -/
def unregister : AdNetBase :=
  if b.sessionRead[iSocket]? = some pSession then
    { b with
      event := b.event.adEventDel iSocket
      sessionWrite := b.sessionWrite.erase iSocket
      sessionRead := b.sessionRead.erase iSocket }
  else b

def adNetBaseCloseSession : AdNetBase :=
  let b := b.touch pSession
  if pSession ∈ b.sessionClose then b
  else
    let b := b.unregister pSession (b.session pSession).iSocket
    { b.setSession pSession ((b.session pSession).adSessionClose outcomes.closes).2 with
      sessionClose := b.sessionClose.insert pSession
      sessionCloseTime := b.sessionCloseTime.orderedInsert (fun p q => p.1 < q.1) (b.time, pSession)
      lives := { b.lives with closed := Function.update b.lives.closed pSession (some b.time) } }

/-- Another session that has the same socket is closed. -/
def closeOther : AdNetBase :=
  match b.sessionRead[iSocket]? with
  | some other => if pSession ≠ other then b.adNetBaseCloseSession outcomes other else b
  | none => b

def adNetBaseAddSession : Int × AdNetBase :=
  let b := b.touch pSession
  let sock := (b.session pSession).iSocket
  let b := b.closeOther outcomes pSession sock
  let (ret, event) := b.event.adEventAdd outcomes.memory sock adEventRead 0
  if ret ≠ adSuccess then (adFailure, { b with event })
  else
    (adSuccess, { b with
      event
      sessionRead := b.sessionRead.insert sock pSession
      lives := { b.lives with registered := Function.update b.lives.registered pSession true } })

/-- The new sessions of a turn. One that cannot be added is given back at once. -/
def addNew : (Nat → Outcomes) → List Nat → AdNetBase → AdNetBase
  | _, [], b => b
  | calls, pSession :: sessionNew, b =>
    let (ret, b) := { b with sessionNew }.adNetBaseAddSession (calls 0) pSession
    addNew (later calls) sessionNew
      (if ret ≠ adSuccess then b.adNetBaseDeleteSession pSession else b)

/-- What a control message says about its session: it is closed, or has something to write. -/
def controlSession : AdNetBase :=
  let b := b.touch pSession
  let sock := (b.session pSession).iSocket
  if !(b.session pSession).adSessionOk then b.adNetBaseCloseSession outcomes pSession
  else if sock ∈ b.sessionRead then { b with sessionWrite := b.sessionWrite.insert sock pSession }
  else b

/-- The change of its time out, if it has one. -/
def controlTimeout : Int × AdNetBase :=
  let (ret, session) := (b.session pSession).adSessionGetTimeout
  let b := b.setSession pSession session
  if 0 ≤ ret then
    let sock := session.iSocket
    let (ret, event) := b.event.adEventModify outcomes.memory sock (b.event.adEventState sock)
      (UInt32.ofNat ret.toNat)
    (ret, { b with event })
  else (adSuccess, b)

def controlMsg : (Nat → Outcomes) → List Nat → AdNetBase → Int × AdNetBase
  | _, [], b => (adSuccess, b)
  | calls, pSession :: msgControl, b =>
    let b := { b with msgControl }.controlSession (calls 0) pSession
    let (ret, b) := b.controlTimeout (calls 0) pSession
    if ret ≠ adSuccess then (adFailure, b) else controlMsg (later calls) msgControl b

/-- A session with something to write is registered for writing, and one without leaves the
map. -/
def activateSession : Int × AdNetBase :=
  let b := b.touch pSession
  if !(b.session pSession).adSessionEmpty then
    if b.event.adEventState iSocket ≠ adEventRead ||| adEventWrite then
      let (ret, event) :=
        b.event.adEventModify outcomes.memory iSocket (adEventRead ||| adEventWrite) 0
      (ret, { b with event })
    else (adSuccess, b)
  else (adSuccess, { b with sessionWrite := b.sessionWrite.erase iSocket })

def activateWrite : (Nat → Outcomes) → List (Int × Nat) → AdNetBase → Int × AdNetBase
  | _, [], b => (adSuccess, b)
  | calls, (iSocket, pSession) :: rest, b =>
    let (ret, b) := b.activateSession (calls 0) pSession iSocket
    if ret ≠ adSuccess then (adFailure, b) else activateWrite (later calls) rest b

/-- A session whose time has come is given back if it can be closed for good. -/
def sweepSession (closing : Int) : AdNetBase :=
  let b := b.touch pSession
  let (ret, session) := (b.session pSession).adSessionClose outcomes.closes
  let b := b.setSession pSession session
  if ret = adSuccess then
    { b.adNetBaseDeleteSession pSession with
      sessionClose := b.sessionClose.erase pSession
      sessionCloseTime := b.sessionCloseTime.erase (closing, pSession) }
  else b

def sweep : (Nat → Outcomes) → List (Int × Nat) → AdNetBase → AdNetBase
  | _, [], b => b
  | calls, (closing, pSession) :: rest, b =>
    if closing + 1 < b.time then
      sweep (later calls) rest (b.sweepSession (calls 0) pSession closing)
    else b

def adNetBaseLoop (turn : Turn) : Int × AdNetBase :=
  let b := { b with time := turn.clock }
  let b := addNew turn.new b.sessionNew b
  let (ret, b) := controlMsg turn.control b.msgControl b
  if ret ≠ adSuccess then (adFailure, b)
  else
    let (ret, b) := activateWrite turn.write b.sessionWrite.toList b
    if ret ≠ adSuccess then (adFailure, b)
    else (adSuccess, sweep turn.close b.sessionCloseTime b)

end AdNetBase

/-- A session to be accepted: where `new` would find memory for it, and what `accept`, `fcntl` and
the event table do. -/
structure Attempt where
  fresh : Option Nat
  accepted : Int
  nonBlock : Bool := true
  outcomes : Outcomes := {}

namespace AdNetBase

variable (b : AdNetBase) (iSocket : Int)

/-- The sessions that wait at the server socket, up to the first failure. -/
def acceptAll : List Attempt → AdNetBase → Option (Int × AdNetBase)
  | [], _ => none
  | attempt :: attempts, b =>
    match b.adNetBaseNewSession attempt.fresh with
    | none => none
    | some (none, b) => some (adFailure, b)
    | some (some pSession, b) =>
      let (sock, session) :=
        (b.session pSession).adSessionInit attempt.accepted attempt.nonBlock
      let b := b.setSession pSession session
      if sock ≠ adFailure then
        let (ret, b) := b.adNetBaseAddSession attempt.outcomes pSession
        if ret ≠ adSuccess then some (adFailure, b.adNetBaseDeleteSession pSession)
        else acceptAll attempts b
      else some (adSuccess, b.adNetBaseDeleteSession pSession)

/-- The messages of a registered session. A failure to give up writing is only reported. -/
def handleSession (outcomes : Outcomes) (pSession : Nat) (iMsgType : UInt32) : AdNetBase :=
  if iMsgType = adEventRead ∨ iMsgType = adEventTimeout then b.adNetBasePushMsg pSession
  else if iMsgType = adEventWrite then
    let b := b.adNetBasePushMsg pSession
    { b with event := (b.event.adEventModify outcomes.memory iSocket adEventRead 0).2 }
  else if iMsgType = adEventError then
    (b.adNetBaseCloseSession outcomes pSession).adNetBasePushMsg pSession
  else b.adNetBaseCloseSession outcomes pSession

def adEventHandleMsg (attempts : List Attempt) (outcomes : Outcomes) (turn : Turn)
    (iMsgType : UInt32) : Option (Int × AdNetBase) :=
  if iMsgType = adEventRead ∧ iSocket = b.iServer then acceptAll attempts b
  else match b.sessionRead[iSocket]? with
    | none => some (adFailure, { b with event := b.event.adEventDel iSocket })
    | some pSession =>
      some (adSuccess, ((b.handleSession iSocket outcomes pSession iMsgType).adNetBaseLoop turn).2)

def adNetBaseAddServer (memory : EventMemory) : Int × AdNetBase :=
  if iSocket ∈ b.sessionRead then (adFailure, b)
  else
    let (ret, event) := b.event.adEventAdd memory iSocket adEventRead 0
    if ret ≠ adSuccess then (adFailure, { b with event })
    else (adSuccess, { b with event, iServer := iSocket })

/-- A client makes a session and hands it over, as `CreateSession` does. -/
def newClient (fresh : Option Nat) (sock : Int) (connects nonBlock closes : Bool) :
    Option AdNetBase :=
  match b.adNetBaseNewSession fresh with
  | none => none
  | some (none, b) => some b
  | some (some pSession, b) =>
    let (id, session) :=
      (b.session pSession).adSessionInitClient closes sock connects nonBlock
    let b := b.setSession pSession session
    if id ≤ 0 then some (b.adNetBaseDeleteSession pSession)
    else
      (tryPush adTaskSessionMax b.sessionNew pSession).map fun sessionNew => { b with sessionNew }

end AdNetBase

/-- What a task does with a session. -/
inductive SessionCall where
  | read (interface : Option (Bytes → Int)) (caches : List Bytes) (failed closes : Bool)
  | write (pbuff : Bytes) (kernel : KernelWrite) (closes : Bool)
  | writeDelayed (kernel : Nat → KernelWrite) (closes : Bool) (unset : Int)
  | setTimeout (iMs : Int)
  | close (closes : Bool)

def SessionCall.outcome (s : AdSession) : SessionCall → Outcome
  | .read interface caches failed closes => s.adSessionRead closes interface caches failed
  | .write pbuff kernel closes => s.adSessionWrite closes kernel pbuff
  | .writeDelayed kernel closes unset => s.adSessionWriteDelayed closes kernel unset
  | .setTimeout iMs => s.adSessionSetTimeout iMs
  | .close closes => { ret := (s.adSessionClose closes).1, session := (s.adSessionClose closes).2 }

/-- The session after a call, and its message if it has pushed itself on the control queue. A
push waits while the queue is full. -/
def AdNetBase.sessionCall (b : AdNetBase) (pSession : Nat) (call : SessionCall) :
    Option AdNetBase :=
  let outcome := call.outcome (b.session pSession)
  let b := b.setSession pSession outcome.session
  if outcome.pushed then
    (tryPush adTaskSessionMax b.msgControl pSession).map fun msgControl => { b with msgControl }
  else some b

inductive NetEvent where
  | message (iSocket : Int) (iMsgType : UInt32) (attempts : List Attempt) (outcomes : Outcomes)
      (turn : Turn)
  | newClient (fresh : Option Nat) (sock : Int) (connects nonBlock closes : Bool)
  | loop (turn : Turn)
  | session (pSession : Nat) (call : SessionCall)
  | active (pSession : Nat)
  | idle (pSession : Nat)

def step : NetEvent → AdNetBase → Option AdNetBase
  | .message iSocket iMsgType attempts outcomes turn, b =>
    (b.adEventHandleMsg iSocket attempts outcomes turn iMsgType).map Prod.snd
  | .newClient fresh sock connects nonBlock closes, b =>
    b.newClient fresh sock connects nonBlock closes
  | .loop turn, b => some (b.adNetBaseLoop turn).2
  | .session pSession call, b => b.sessionCall pSession call
  | .active pSession, b => some (b.setSession pSession (b.session pSession).adSessionActive)
  | .idle pSession, b => some (b.setSession pSession (b.session pSession).adSessionIdle)

/-- A base that serves a socket, if the event table has memory for it. -/
def serving (memory : EventMemory) (iSocket : Int) : AdNetBase :=
  (AdNetBase.adNetBaseAddServer {} iSocket memory).2

end NetBase
