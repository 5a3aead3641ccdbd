import Mathlib.Tactic
import RtbAdapter.RequestAccounts
import RtbAdapter.SessionBuffer
import RtbAdapter.NetProtocol

/-!
# The adapter

The calls of the adapter on what arrives from its sessions: the greeting of a
bidding engine, the reply of one, and the requests of the exchanges. A request
goes to an engine with an empty list and stays in the list of its session until
a reply or the end of the connection, also after it was given up.
-/

namespace Adapter

open ByteWords ByteMemory RtbBase NetProtocol SessionBuffer HeldCounts RequestAccounts

/-- What the adapter reads of a request object: its clock, the sessions it came from and
went to, whether it was given up, whether its user is watched, and whether the protocol of
its exchange can make an empty answer of it. -/
structure AdAdapterPara where
  time : Time
  srcSession : Nat
  dstSession : Nat
  bTimeout : Bool
  bDebugUser : Bool
  emptyToHttp : Bool

abbrev Paras := Nat → AdAdapterPara

/-- What `AdAdapterToInternal` makes of a packet. -/
structure AdxRequest where
  toInternal : Bool
  bDebugUser : Bool
  emptyToHttp : Bool

/-- A reply of a local engine: the flags are right, the request object it names, and whether
`AdAdapterToHttp` makes a bid of the response. -/
structure InternalPacket where
  flags : Bool
  data : Nat
  toHttp : Bool

/-- A read, as bytes and as what is made of them. `toHttp` tells whether `AdAdapterToHttp`
makes a bid of the bytes from an offset on for a request, and `about` is the number of the
request that an engine of the net produced them for. -/
structure Packet where
  memory : Memory
  size : Int
  request : AdxRequest
  internal : List InternalPacket
  toHttp : Nat → Int → Bool
  about : Nat

/-- `AD_IBIDDING_ENG_LOCAL` and `AD_IBIDDING_ENG_REMOTE`. -/
def adIBiddingEngLocal : List UInt8 :=
  "IBIDDING(local)".toList.map fun c => UInt8.ofNat c.toNat

def adIBiddingEngRemote : List UInt8 :=
  "IBIDDING(remote)".toList.map fun c => UInt8.ofNat c.toNat

def Packet.greets (p : Packet) (text : List UInt8) : Bool :=
  p.size ≤ 32 && readBytes p.memory 0 text.length = text

inductive Kind where
  | accepted | rejected
  deriving DecidableEq

inductive Message where
  | empty (id : Nat)
  | bid (id about : Nat) (remote : Bool)
  | request (req id : Nat)
  deriving DecidableEq

/-- The number that a message is an answer to. -/
def Message.answers : Message → Option Nat
  | .empty id => some id
  | .bid id _ _ => some id
  | .request _ _ => none

structure AdAdapter extends Account Kind Message where
  sessionOk : Nat → Bool
  sessionPrivate : Nat → Option (List Nat)
  localSession : AdLRBuffer
  netSession : AdLRBuffer
  paras : Paras
  crashed : Bool

namespace AdAdapter

def write (s : AdAdapter) (session : Nat) (message : Message) : AdAdapter :=
  { s with toAccount := s.toAccount.write session message }

def sessionActive (s : AdAdapter) (session : Nat) : AdAdapter :=
  { s with toAccount := s.toAccount.sessionActive session }

def sessionIdle (s : AdAdapter) (session : Nat) : AdAdapter :=
  { s with toAccount := s.toAccount.sessionIdle session }

def freePara (s : AdAdapter) (req : Nat) : AdAdapter :=
  { s with toAccount := s.toAccount.freePara req }

def setPara (s : AdAdapter) (req : Nat) (para : AdAdapterPara) : AdAdapter :=
  { s with paras := Function.update s.paras req para }

def setPrivate (s : AdAdapter) (session : Nat) (list : Option (List Nat)) : AdAdapter :=
  { s with sessionPrivate := Function.update s.sessionPrivate session list }

/-- The object that is given out has been cleared. -/
def allocPara (s : AdAdapter) (now : Time) (fresh : Nat) : Option (Nat × AdAdapter) :=
  (s.toAccount.allocPara fresh).map fun (req, account) =>
    (req, { s with toAccount := account }.setPara req ⟨now, 0, 0, false, false, false⟩)

def arrive (s : AdAdapter) (req : Nat) (kind : Kind) (session : Nat) : AdAdapter :=
  { s with toAccount := s.toAccount.arrive req kind session }

/-- The empty answer of a request, when its protocol makes one. -/
def sessionTimeout (s : AdAdapter) (req session : Nat) : AdAdapter :=
  (if (s.paras req).emptyToHttp then s.write session (.empty (s.holder req)) else s).sessionIdle
    session

/-- A request is given up. -/
def giveUp (s : AdAdapter) (req : Nat) : AdAdapter :=
  (s.setPara req { s.paras req with bTimeout := true }).sessionTimeout req
    (s.paras req).srcSession

/-- `AdParaList::clear`, one request. -/
def clearOne (s : AdAdapter) (req : Nat) : AdAdapter :=
  ((if (s.paras req).bTimeout then s else s.giveUp req).freePara req).sessionIdle
    (s.paras req).dstSession

/-- `AdParaList::check`: the requests given up before are passed over, and the first that is
in time ends the walk. -/
def check (s : AdAdapter) (now : Time) : List Nat → AdAdapter
  | [] => s
  | req :: rest =>
    if (s.paras req).bTimeout then s.check now rest
    else if adResponseMaxTime < (s.paras req).time.toNow now then
      (s.giveUp req).check now rest
    else s

/-- A request whose reply has come: unless it was given up, the bid goes to its source, or an
empty answer when no bid can be made. -/
def finish (s : AdAdapter) (session req : Nat) (toHttp : Bool) (about : Nat) (remote : Bool) :
    AdAdapter :=
  let idled := s.sessionIdle session
  (if (s.paras req).bTimeout then idled
    else if toHttp then
      (idled.write (s.paras req).srcSession (.bid (s.holder req) about remote)).sessionIdle
        (s.paras req).srcSession
    else idled.sessionTimeout req (s.paras req).srcSession).freePara req

/-- The reply of a local engine: each packet names a request of the list. -/
def localReply (session : Nat) (s : AdAdapter) (p : InternalPacket) : AdAdapter :=
  match s.sessionPrivate session with
  | none => s
  | some list =>
    if p.flags ∧ p.data ∈ list then
      (s.setPrivate session (some (list.erase p.data))).finish session p.data p.toHttp
        (s.holder p.data) false
    else s

/-- The reply of an engine of the net: a request is popped for every packet length that is
found. The source reads the node of the list just after it took it out. -/
def remoteReply (session : Nat) (p : Packet) : List Nat → Int → AdAdapter → AdAdapter
  | [], _, s => s
  | req :: rest, iOffset, s =>
    let iLen := tlvPacketLen (fun a => p.memory (iOffset + a)) (p.size - iOffset)
    let popped := s.setPrivate session (some rest)
    if 0 < iLen then
      let finished := popped.finish session req (p.toHttp req iOffset) p.about true
      if toInt32 (iOffset + iLen) < p.size then
        remoteReply session p rest (toInt32 (iOffset + iLen)) finished
      else finished
    else popped

def bidders (s : AdAdapter) : List Nat := s.localSession ++ s.netSession

/-- A call for the session of an engine. -/
def bidResponse (s : AdAdapter) (session : Nat) (bTlv : Bool) (cache : Option Packet)
    (now : Time) : AdAdapter :=
  if s.sessionOk session then
    match s.sessionPrivate session with
    | none => { s with crashed := true }
    | some list =>
      let checked := s.check now list
      match cache with
      | none => checked
      | some p =>
        if bTlv then remoteReply session p list 0 checked
        else p.internal.foldl (localReply session) checked
  else
    let cleared :=
      match s.sessionPrivate session with
      | none => s
      | some list => list.foldl clearOne (s.setPrivate session none)
    (if bTlv then { cleared with netSession := cleared.netSession.del session }
      else { cleared with localSession := cleared.localSession.del session }).sessionIdle session

/-- An engine that greets gets an empty list. -/
def greet (s : AdAdapter) (session : Nat) (bTlv : Bool) : AdAdapter :=
  let active := (s.setPrivate session (some [])).sessionActive session
  if bTlv then { active with netSession := active.netSession.push session }
  else { active with localSession := active.localSession.push session }

/-- The engine for a turn of the search: engines of the net come first for a watched user. -/
def nextBidder (s : AdAdapter) (bDebugUser : Bool) (loop : Nat) : Option (Nat × Bool) :=
  let fromNet := (s.netSession.find loop).map fun d => (d, true)
  let fromLocal := (s.localSession.find loop).map fun d => (d, false)
  if bDebugUser then fromNet <|> fromLocal else fromLocal <|> fromNet

inductive Choice where
  | refuse
  | broken (session : Nat)
  | send (session : Nat) (list : List Nat)

/-- The search for an engine with an empty list, for so many turns. -/
def findBidder (s : AdAdapter) (bDebugUser : Bool) : Nat → Nat → Choice
  | 0, _ => .refuse
  | turns + 1, loop =>
    match s.nextBidder bDebugUser loop with
    | none => .refuse
    | some (d, _) =>
      match s.sessionPrivate d with
      | none => .broken d
      | some list =>
        if s.sessionOk d then
          if list = [] then .send d list
          else s.findBidder bDebugUser turns ((loop + 1) % 4294967296)
        else .refuse

/-- The end of a request that goes to no engine. -/
def refuse (s : AdAdapter) (req session : Nat) : AdAdapter :=
  (s.sessionTimeout req session).freePara req

/-- An accepted request goes to the engine that was found. -/
def sendBidder (s : AdAdapter) (req session : Nat) : Choice → AdAdapter
  | .refuse => s.refuse req session
  | .broken d => { s with sessionOk := Function.update s.sessionOk d false }.refuse req session
  | .send d list =>
    let sent := (s.sessionActive d).setPara req
      { s.paras req with srcSession := session, dstSession := d }
    (sent.setPrivate d (some (list ++ [req]))).write d (.request req (sent.holder req))

/-- A request of an exchange. -/
def request (s : AdAdapter) (req session : Nat) (p : AdxRequest) (loop : Nat) : AdAdapter :=
  let kind : Kind := if p.toInternal then .accepted else .rejected
  let locked := ((s.arrive req kind session).sessionActive session).setPara req
    { s.paras req with bDebugUser := p.bDebugUser, emptyToHttp := p.emptyToHttp }
  if p.toInternal then
    locked.sendBidder req session
      (locked.findBidder p.bDebugUser (locked.localSession.length / 2 + 1) loop)
  else locked.refuse req session

def run (s : AdAdapter) (session : Nat) (cache : Option Packet) (now : Time) (fresh loop : Nat) :
    Option AdAdapter :=
  if s.localSession.check session then some (s.bidResponse session false cache now)
  else if s.netSession.check session then some (s.bidResponse session true cache now)
  else
    match cache with
    | none => some s
    | some p =>
      if p.greets adIBiddingEngLocal then some (s.greet session false)
      else if p.greets adIBiddingEngRemote then some (s.greet session true)
      else (s.allocPara now fresh).map fun (req, s) => s.request req session p.request loop

end AdAdapter

/-- One step of the system: a call of the adapter, a connection that breaks, or a hold that
the net layer takes on a session or gives back. -/
inductive Input where
  | run (session : Nat) (cache : Option Packet) (now : Time) (fresh loop : Nat)
  | close (session : Nat)
  | active (session : Nat)
  | idle (session : Nat)

def step (input : Input) (s : AdAdapter) : Option AdAdapter :=
  if s.crashed then none
  else
    match input with
    | .run session cache now fresh loop => s.run session cache now fresh loop
    | .close session => some { s with sessionOk := Function.update s.sessionOk session false }
    | .active session =>
      some { s.sessionActive session with held := HeldCounts.active s.held session }
    | .idle session =>
      if 0 < s.held session then
        some { s.sessionIdle session with held := HeldCounts.idle s.held session }
      else none

/-- The adapter before its first engine greets. -/
def start (held : Nat → Nat) : AdAdapter where
  uiActive := held
  ctFreePara := []
  used := []
  holder := fun _ => 0
  asked := []
  held := held
  log := []
  sessionOk := fun _ => true
  sessionPrivate := fun _ => none
  localSession := []
  netSession := []
  paras := fun _ => ⟨⟨0, 0⟩, 0, 0, false, false, false⟩
  crashed := false

end Adapter
