import RtbAdapter.CText
import RtbAdapter.PingPong

/-!
# The output of the control server

`AD_PRINT` appends its text to the visible half of a buffer, and each turn of the control server
asks for the back half. A back half that was given out is cleared at the next turn, and the halves
change places at the second turn without one.
-/

namespace OutputCache

open ByteWords CText PingPong

/-- `m_iGets` of the only cache, which is static, starts at zero. -/
structure AdOutputCache where
  iGets : Int := 0
  caches : AdPingPongBuffer Bytes := ⟨[], [], false⟩

namespace AdOutputCache

def write (cache : AdOutputCache) (buff : Bytes) : AdOutputCache :=
  { cache with caches := cache.caches.set (cache.caches.get ++ cStr buff) }

/-- The null pointer is `none`. -/
def getRead (cache : AdOutputCache) : Option Bytes × AdOutputCache :=
  let cleared := if cache.iGets = 0 ∧ cache.caches.getBack ≠ [] then cache.caches.setBack []
    else cache.caches
  if cleared.getBack = [] then
    let iGets := toInt32 (cache.iGets + 1)
    (none, ⟨iGets, if iGets ≥ 2 ∧ cleared.get ≠ [] then cleared.switch else cleared⟩)
  else (some cleared.getBack, ⟨0, cleared⟩)

end AdOutputCache

inductive Call where
  | write (buff : Bytes)
  | getRead

def step (cache : AdOutputCache) : Call → Bytes × AdOutputCache
  | .write buff => ([], cache.write buff)
  | .getRead => (cache.getRead.1.getD [], cache.getRead.2)

/-- What a row of calls hands out. -/
def delivered (cache : AdOutputCache) : List Call → Bytes
  | [] => []
  | c :: calls => (step cache c).1 ++ delivered (step cache c).2 calls

def after (cache : AdOutputCache) (calls : List Call) : AdOutputCache :=
  calls.foldl (fun cache c => (step cache c).2) cache

def written : List Call → Bytes
  | [] => []
  | .write buff :: calls => cStr buff ++ written calls
  | .getRead :: calls => written calls

def reads (calls : List Call) : Nat :=
  (calls.filter fun | .getRead => true | .write _ => false).length

/-- What waits: a back half that was not given out, and the visible half behind it. -/
def pending (cache : AdOutputCache) : Bytes :=
  (if cache.iGets = 0 then [] else cache.caches.getBack) ++ cache.caches.get

variable {cache : AdOutputCache} {calls : List Call}

/-- The turns until all that waits is given out. -/
def turns (cache : AdOutputCache) : Nat :=
  if cache.iGets = 0 then 3 else if cache.caches.getBack = [] then 2 else 4

end OutputCache
