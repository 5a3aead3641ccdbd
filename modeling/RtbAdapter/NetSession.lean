import RtbAdapter.PacketReassembly

/-!
# Sessions

`AdSession` over one socket. What the kernel makes of a call stands beside it as an
argument: the outcome of a write, and whether a close succeeds. A session that has
something to say to its network base pushes itself on the control queue.
-/

namespace NetSession

open ByteWords
open NetProtocol (adSuccess adFailure)
open PacketReassembly (adCacheMax)

/-- What a write of the socket comes to: some bytes, `EAGAIN` and its like, or an error. -/
inductive KernelWrite where
  | took (count : Nat)
  | again
  | failed

/-- `AdTcp::Write`. Where it returns a length the kernel has the first bytes, so many. -/
def tcpWrite (iSocket : Int) (kernel : KernelWrite) (pPacket : Bytes) : Int :=
  if iSocket ≤ 0 then adFailure
  else match kernel with
    | .took count => if min count pPacket.length = 0 then adFailure else min count pPacket.length
    | .again => adSuccess
    | .failed => adFailure

/-- `AdTcp::Disconnect`: its result and `m_iSocket` after it. -/
def tcpDisconnect (closes : Bool) (iSocket : Int) : Int × Int :=
  if iSocket = adFailure then (adSuccess, iSocket)
  else if closes then (adSuccess, adFailure)
  else (adFailure, iSocket)

/-- The bytes of a packet that the kernel has after a write that returned `len`. -/
def sent (len : Int) (pPacket : Bytes) : Bytes := pPacket.take len.toNat

/-- A new `AdCache` with what is in a buffer. -/
def adCache (buff : Bytes) : Bytes := buff.take (adCacheMax - 1)

structure AdSession where
  iSocket : Int := adFailure
  tcpSocket : Int := adFailure
  ltSendCache : List Bytes := []
  uiActive : UInt32 := 0
  iTimeout : Int := 0
  bTimeoutChange : Bool := false
  reading : PacketReassembly.AdSession := {}

/-- What a call returns, the bytes the kernel got from it, whether the session has pushed itself
on the control queue, and the session after it. -/
structure Outcome where
  ret : Int
  sent : Bytes := []
  pushed : Bool := false
  session : AdSession

namespace AdSession

variable (s : AdSession) (closes : Bool) (kernel : KernelWrite)

def adSessionClose : Int × AdSession :=
  let (ret, tcpSocket) := tcpDisconnect closes s.tcpSocket
  let cleared : AdSession :=
    { s with tcpSocket, ltSendCache := [], reading := { s.reading with readCache := [] } }
  if ret = adSuccess ∧ s.uiActive ≠ 0 then (adFailure, cleared)
  else
    (ret, { cleared with iTimeout := 0, bTimeoutChange := false, reading := {} })

def adSessionOk : Bool := s.iSocket ≠ adFailure ∧ s.iSocket = s.tcpSocket

def adSessionEmpty : Bool := s.ltSendCache.isEmpty

def adSessionActive : AdSession := { s with uiActive := s.uiActive + 1 }

def adSessionIdle : AdSession :=
  if 0 < s.uiActive then { s with uiActive := s.uiActive - 1 } else s

def adSessionSetTimeout (iMs : Int) : Outcome :=
  if s.iTimeout ≠ iMs then
    { ret := adSuccess, pushed := true
      session := { s with iTimeout := iMs, bTimeoutChange := true } }
  else { ret := adSuccess, session := s }

def adSessionGetTimeout : Int × AdSession :=
  if s.bTimeoutChange then (s.iTimeout, { s with bTimeoutChange := false }) else (adFailure, s)

/-- `AdSessionWrite(char *, int)`, and `AdSessionWrite(AdCache &)`, which copies its cache alike. -/
def adSessionWrite (pbuff : Bytes) : Outcome :=
  if pbuff = [] then { ret := adFailure, session := s }
  else
    let len := tcpWrite s.tcpSocket kernel pbuff
    if len = adFailure then
      { ret := adSuccess, pushed := true, session := (s.adSessionClose closes).2 }
    else if len = adSuccess then
      { ret := adSuccess, pushed := true
        session := { s with ltSendCache := s.ltSendCache ++ [adCache pbuff] } }
    else { ret := adSuccess, sent := sent len pbuff, session := s }

/-- `AdSessionInit(int)` after `accept` has returned. -/
def adSessionInit (accepted : Int) (nonBlock : Bool) : Int × AdSession :=
  let s := { s with tcpSocket := accepted }
  if accepted ≤ 0 then (adFailure, s)
  else if !nonBlock then (adFailure, s)
  else (accepted, { s with iSocket := accepted })

/-- `AdSessionInit(string &, int)`: what `socket` and `connect` come to. -/
def adSessionInitClient (sock : Int) (connects nonBlock : Bool) : Int × AdSession :=
  if sock = adFailure then s.adSessionInit adFailure nonBlock
  else if !connects then
    (adFailure, { s with tcpSocket := (tcpDisconnect closes sock).2 })
  else s.adSessionInit sock nonBlock

/-- `AdSessionRead`: the caches that were read, and whether the last read failed. -/
def adSessionRead (interface : Option (Bytes → Int)) (caches : List Bytes) (failed : Bool) :
    Outcome :=
  let s := { s with reading := (s.reading.readAll interface caches).2 }
  if failed then { ret := adSuccess, pushed := true, session := (s.adSessionClose closes).2 }
  else { ret := adSuccess, session := s }

end AdSession

/-- The loop of the delayed write: the last `len`, the bytes the kernel got, and the caches that
are left. The outcomes of the writes are counted from the first cache on. -/
def writeCaches (iSocket : Int) (len : Int) : (Nat → KernelWrite) → List Bytes →
    Int × Bytes × List Bytes
  | _, [] => (len, [], [])
  | kernel, pCache :: rest =>
    let len := tcpWrite iSocket (kernel 0) pCache
    if len = adSuccess then (len, [], pCache :: rest)
    else if len = adFailure then (len, [], rest)
    else
      let (last, bytes, left) := writeCaches iSocket len (fun i => kernel (i + 1)) rest
      (last, sent len pCache ++ bytes, left)

/-- `AdSessionWrite()`. With nothing to write `len` is read before it is set. -/
def AdSession.adSessionWriteDelayed (s : AdSession) (closes : Bool) (kernel : Nat → KernelWrite)
    (unset : Int) : Outcome :=
  let (len, bytes, left) := writeCaches s.tcpSocket unset kernel s.ltSendCache
  let after := { s with ltSendCache := left }
  if len = adFailure then
    { ret := left.length, sent := bytes, pushed := true
      session := (after.adSessionClose closes).2 }
  else { ret := left.length, sent := bytes, session := after }

theorem close_iSocket (s : AdSession) (closes : Bool) :
    (s.adSessionClose closes).2.iSocket = s.iSocket := by
  simp only [AdSession.adSessionClose]
  split <;> rfl

theorem close_uiActive (s : AdSession) (closes : Bool) :
    (s.adSessionClose closes).2.uiActive = s.uiActive := by
  simp only [AdSession.adSessionClose]
  split <;> rfl

theorem close_ltSendCache (s : AdSession) (closes : Bool) :
    (s.adSessionClose closes).2.ltSendCache = [] := by
  simp only [AdSession.adSessionClose]
  split <;> rfl

end NetSession
