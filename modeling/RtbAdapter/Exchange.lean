import Mathlib.Tactic
import Std.Data.TreeMap.Lemmas
import RtbAdapter.RequestAccounts
import RtbAdapter.SessionBuffer
import RtbAdapter.PendingRequests

/-!
# The exchange

The calls of the exchange on what arrives from its sessions: a request of an ssp
goes to a bidder and waits in the list of its session, a click is redirected, a
reply of a bidder answers the request whose time it names.
-/

namespace Exchange

open Std RtbBase PendingRequests SessionBuffer HeldCounts RequestAccounts

/-- What the http parser reads of a packet taken as a request. -/
structure HttpRequest where
  parse : Bool
  uri : Option String
  para : String → Option (List UInt8)
  toInternal : Bool

/-- What the http and json parsers read of a packet taken as a reply: whether it parses, has
the state of success, has a body and the body is json, and the number at the head of the
impression id of its first bid, if it has one. -/
structure HttpReply where
  parseResponse : Bool
  httpOk : Bool
  body : Bool
  json : Bool
  impId : Option Int

def HttpReply.readable (p : HttpReply) : Bool :=
  p.parseResponse && p.httpOk && p.body && p.json

/-- A `long` as an `unsigned long`. -/
def toULong (n : Int) : Nat := (n % 18446744073709551616).toNat

structure Packet where
  request : HttpRequest
  reply : HttpReply

/-- A digit below `A` is read as decimal. The source leaves other characters unset. -/
def fromHex (x : UInt8) : UInt8 :=
  if 65 ≤ x ∧ x ≤ 90 then x - 65 + 10
  else if 97 ≤ x ∧ x ≤ 122 then x - 97 + 10
  else if 48 ≤ x ∧ x ≤ 57 then x - 48
  else 0

/-- A percent sign without two characters after it is left out. -/
def urlDecode : List UInt8 → List UInt8
  | [] => []
  | c :: rest =>
    if c = 43 then 32 :: urlDecode rest
    else if c = 37 then
      match rest with
      | high :: low :: rest => (fromHex high * 16 + fromHex low) :: urlDecode rest
      | short => urlDecode short
    else c :: urlDecode rest

/-- The landing page of a click. -/
def HttpRequest.landingPage (p : HttpRequest) : Option (List UInt8) :=
  if p.uri = some "/click" then
    match p.para "pid", p.para "mid", p.para "cu" with
    | some _, some _, some cu => some (urlDecode cu)
    | _, _, _ => none
  else none

inductive Kind where
  | ssp | click
  deriving DecidableEq

inductive Message where
  | empty (id : Nat)
  | bid (id : Nat)
  | redirect (id : Nat)
  | request (id : Nat)
  deriving DecidableEq

/-- The number that a message is an answer to. -/
def Message.answers : Message → Option Nat
  | .empty id => some id
  | .bid id => some id
  | _ => none

def Message.redirects : Message → Option Nat
  | .redirect id => some id
  | _ => none

structure AdAdx extends Account Kind Message where
  sessionOk : Nat → Bool
  sessionPrivate : Nat → Option AdParaList
  dspSession : AdLRBuffer
  paras : Paras
  crashed : Bool

namespace AdAdx

def write (s : AdAdx) (session : Nat) (message : Message) : AdAdx :=
  { s with toAccount := s.toAccount.write session message }

def sessionActive (s : AdAdx) (session : Nat) : AdAdx :=
  { s with toAccount := s.toAccount.sessionActive session }

def sessionIdle (s : AdAdx) (session : Nat) : AdAdx :=
  { s with toAccount := s.toAccount.sessionIdle session }

def freePara (s : AdAdx) (req : Nat) : AdAdx :=
  { s with toAccount := s.toAccount.freePara req }

/-- The object that is given out has been cleared. -/
def allocPara (s : AdAdx) (now : Time) (fresh : Nat) : Option (Nat × AdAdx) :=
  (s.toAccount.allocPara fresh).map fun (req, account) =>
    (req, { s with
      toAccount := account
      paras := Function.update s.paras req ⟨now, 0, 0, false⟩ })

def arrive (s : AdAdx) (req : Nat) (kind : Kind) (session : Nat) : AdAdx :=
  { s with toAccount := s.toAccount.arrive req kind session }

/-- The empty answer of a request. -/
def sessionTimeout (s : AdAdx) (req session : Nat) : AdAdx :=
  (s.write session (.empty (s.holder req))).sessionIdle session

def apply (s : AdAdx) : Effect → AdAdx
  | .sessionTimeout req src => s.sessionTimeout req src
  | .freePara req => s.freePara req
  | .idle dst => s.sessionIdle dst

def setPrivate (s : AdAdx) (session : Nat) (list : Option AdParaList) : AdAdx :=
  { s with sessionPrivate := Function.update s.sessionPrivate session list }

/-- The list and the objects as a check leaves them. -/
def setCheck (s : AdAdx) (session : Nat) (c : AdParaList.Check) : AdAdx :=
  { s.setPrivate session (some c.list) with paras := c.paras }

/-- A bid goes to the source of the request. -/
def sendResponse (s : AdAdx) (req : Nat) : AdAdx :=
  s.write (s.paras req).srcSession (.bid (s.holder req))

/-- A reply that can be read names a request by its time. One without a bid is read past
the end. -/
def dspReply (s : AdAdx) (session : Nat) (list : AdParaList) (p : HttpReply) : AdAdx :=
  if p.readable then
    match p.impId with
    | none => { s with crashed := true }
    | some id =>
      match list.delTime (toULong id) with
      | (none, _) => s
      | (some req, list) => (s.setPrivate session (some list)).sendResponse req
  else s

/-- A call for the session of a bidder. -/
def dspResponse (s : AdAdx) (session : Nat) (cache : Option Packet) (now : Time) : AdAdx :=
  if s.sessionOk session then
    match s.sessionPrivate session with
    | none => { s with crashed := true }
    | some list =>
      match list.check s.paras now true with
      | none => { s with crashed := true }
      | some c =>
        let checked := c.effects.foldl apply (s.setCheck session c)
        match cache with
        | none => checked
        | some p => checked.dspReply session c.list p.reply
  else
    let cleared :=
      match s.sessionPrivate session with
      | none => s
      | some list =>
        (list.clear s.paras).2.2.foldl apply
          { s.setPrivate session none with paras := (list.clear s.paras).2.1 }
    { cleared with dspSession := cleared.dspSession.del session }.sessionIdle session

/-- The end of a request that goes to no bidder. -/
def refuse (s : AdAdx) (req session : Nat) : AdAdx :=
  (s.sessionTimeout req session).freePara req

/-- A request goes to the session of a bidder, found by the running number of the task. -/
def sendDsp (s : AdAdx) (req session : Nat) (p : HttpRequest) (loop : Nat) : AdAdx :=
  let locked := s.sessionActive session
  if p.toInternal then
    match locked.dspSession.find loop with
    | none => locked.refuse req session
    | some dsp =>
      match locked.sessionPrivate dsp with
      | none =>
        { locked with sessionOk := Function.update locked.sessionOk dsp false }.refuse req session
      | some list =>
        if locked.sessionOk dsp then
          let sent := { locked.sessionActive dsp with
            paras := Function.update locked.paras req
              { locked.paras req with srcSession := session, dstSession := dsp } }
          (sent.setPrivate dsp (some (list.push sent.paras req))).write dsp
            (.request (sent.holder req))
        else locked.refuse req session
  else locked.refuse req session

/-- An empty landing page leaves the output empty, and nothing is written. -/
def redirect (s : AdAdx) (req session : Nat) (page : List UInt8) : AdAdx :=
  if page = [] then s else s.write session (.redirect (s.holder req))

def run (s : AdAdx) (session : Nat) (cache : Option Packet) (now : Time) (fresh loop : Nat) :
    Option AdAdx :=
  if s.dspSession.check session then some (s.dspResponse session cache now)
  else
    match cache with
    | none => some s
    | some p =>
      (s.allocPara now fresh).map fun (req, s) =>
        if p.request.parse then
          match p.request.landingPage with
          | some page => (s.arrive req .click session).redirect req session page
          | none => (s.arrive req .ssp session).sendDsp req session p.request loop
        else (s.arrive req .ssp session).refuse req session

/-- A new session of a bidder. -/
def connect (s : AdAdx) (session : Nat) : AdAdx :=
  { (s.setPrivate session (some .empty)).sessionActive session with
    sessionOk := Function.update s.sessionOk session true
    dspSession := s.dspSession.push session }

end AdAdx

/-- One step of the system: a call of the exchange, a new session of a bidder, a connection
that breaks, or a hold that the net layer takes on a session or gives back. -/
inductive Input where
  | run (session : Nat) (cache : Option Packet) (now : Time) (fresh loop : Nat)
  | connect (session : Nat)
  | close (session : Nat)
  | active (session : Nat)
  | idle (session : Nat)

def step (input : Input) (s : AdAdx) : Option AdAdx :=
  if s.crashed then none
  else
    match input with
    | .run session cache now fresh loop => s.run session cache now fresh loop
    | .connect session =>
      if s.dspSession.check session then none else some (s.connect session)
    | .close session => some { s with sessionOk := Function.update s.sessionOk session false }
    | .active session =>
      some { s.sessionActive session with held := HeldCounts.active s.held session }
    | .idle session =>
      if 0 < s.held session then
        some { s.sessionIdle session with held := HeldCounts.idle s.held session }
      else none

end Exchange
