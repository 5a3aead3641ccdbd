import RtbAdapter.CText
import RtbAdapter.PacketReassembly
import RtbAdapter.StepRuns

/-!
# The lengths of caches

A cache is an array of 8192 bytes and a length. Writing, appending and copying leave
room for a NUL at the end of the array. A read from the socket and a formatted text set
the length to what the kernel or `snprintf` reports, and that can be more.
-/

namespace CacheLengths

open ByteMemory ByteWords CText
open NetProtocol (adSuccess adFailure)
open PacketReassembly (adCacheMax)

/-- A part of an array that is read or written. -/
structure Span where
  start : Int
  count : Nat

def Span.Inside (span : Span) : Prop := 0 ≤ span.start ∧ span.start + span.count ≤ adCacheMax

instance (span : Span) : Decidable span.Inside := inferInstanceAs (Decidable (_ ∧ _))

/-- An `int` as the count of a `memcpy`. -/
def sizeT (n : Int32) : Nat := (n.toInt % 2 ^ 64).toNat

def memcpy (m : Memory) (start : Int) (source : Memory) (count : Nat) : Memory := fun a =>
  if start ≤ a ∧ a < start + count then source (a - start) else m a

structure AdCache where
  cCache : Memory
  iLen : Int32

def iMaxLen : Int32 := Int32.ofNat (adCacheMax - 1)

/-- What a call returns, the cache after it, and the parts of arrays it has touched. -/
structure Touched where
  ret : Int := adSuccess
  cache : AdCache
  spans : List Span

namespace AdCache

variable (c : AdCache)

/-- A `memcpy` into the array, and a NUL at the new length. -/
def fill (start : Int32) (source : Memory) (count iLen : Int32) : Touched where
  cache :=
    { cCache := put (memcpy c.cCache start.toInt source (sizeT count)) ⟨iLen.toInt, [0]⟩
      iLen }
  spans := [⟨start.toInt, sizeT count⟩, ⟨iLen.toInt, 1⟩]

def write (pBuff : Memory) (iLen : Int32) : Touched :=
  if iMaxLen < iLen then c.fill 0 pBuff iMaxLen iMaxLen else c.fill 0 pBuff iLen iLen

/-- The sum of the lengths is an `int`. -/
def append (buff : Memory) (iLen : Int32) : Touched :=
  if iMaxLen < iLen + c.iLen then
    { c.fill c.iLen buff (iMaxLen - c.iLen) iMaxLen with ret := adFailure }
  else c.fill c.iLen buff iLen (c.iLen + iLen)

/-- `operator=` touches the same part of both arrays. -/
def assign (a : AdCache) : Touched :=
  if iMaxLen < a.iLen then c.fill 0 a.cCache iMaxLen iMaxLen
  else c.fill 0 a.cCache a.iLen a.iLen

/-- `snprintf(Get(), Max(), ..)` and `Set` of what it returns: the length of the whole text, or
-1 where that is no `int`. -/
def print (text : Bytes) : Touched where
  cache :=
    { cCache := put c.cCache ⟨0, snprintf adCacheMax text ++ [0]⟩
      iLen := if text.length < 2 ^ 31 then Int32.ofNat text.length else -1 }
  spans := [⟨0, min text.length (adCacheMax - 1) + 1⟩]

/-- What `AdSessionWrite` hands to the socket. -/
def socketSpans : List Span := if c.iLen ≤ 0 then [] else [⟨0, sizeT c.iLen⟩]

end AdCache

/-- `m_mResponse`; a status that is not there has an empty text. -/
def responseText (iStatus : Int32) : Bytes :=
  if iStatus = 200 then ascii "Ok"
  else if iStatus = 204 then ascii "No Content"
  else if iStatus = 301 then ascii "Moved Permanently"
  else if iStatus = 302 then ascii "Move temporarily"
  else if iStatus = 400 then ascii "Bad Request"
  else if iStatus = 401 then ascii "Unauthorized"
  else if iStatus = 404 then ascii "Not Found"
  else if iStatus = 408 then ascii "Request Timeout"
  else if iStatus = 413 then ascii " Request Entity Too Large"
  else []

/-- `m_mMethodToStr` -/
def methodText (iMethod : Int32) : Bytes :=
  match iMethod.toInt with
  | 1 => ascii "GET"
  | 2 => ascii "POST"
  | 3 => ascii "HEAD"
  | 4 => ascii "CONNECT"
  | 5 => ascii "PUT"
  | 6 => ascii "DELETE"
  | 7 => ascii "OPTIONS"
  | 8 => ascii "PROPFIND"
  | _ => []

inductive HttpCall where
  | getResponse (iStatus : Int32) (pType : Option Bytes)
  | getResponseBody (iStatus : Int32) (pType : Option Bytes) (pBody : Bytes) (iBodyLen : Int32)
  | getRedirect (iStatus : Int32) (sLocation : Bytes)
  | getRequest (iMethod : Int32) (pUri : Option Bytes) (pBody : Bytes) (iBodyLen : Int32)

def statusLine (iStatus : Int32) : Bytes :=
  ascii "HTTP/1.1 " ++ decimal iStatus.toInt ++ ascii " " ++ cStr (responseText iStatus) ++
    ascii "\r\n"

def contentType (pType : Option Bytes) : Bytes :=
  ascii "Content-Type: " ++ (pType.elim (ascii "text/plain") cStr) ++ ascii "\r\n"

def contentLength (iLen : Int32) : Bytes :=
  ascii "Content-Length: " ++ decimal iLen.toInt ++ ascii "\r\n"

def connectionClose : Bytes := ascii "Connection: close\r\n\r\n"

/-- The text that goes into the cache. A redirect to nowhere leaves the cache alone. -/
def HttpCall.text : HttpCall → Option Bytes
  | .getResponse iStatus pType =>
    some (statusLine iStatus ++ contentType pType ++ contentLength 0 ++ connectionClose)
  | .getResponseBody iStatus pType pBody iBodyLen =>
    some (statusLine iStatus ++ contentType pType ++ contentLength iBodyLen ++
      connectionClose ++ cStr pBody)
  | .getRedirect iStatus sLocation =>
    if sLocation = [] then none
    else
      some (statusLine iStatus ++ contentType none ++ contentLength 0 ++
        ascii "Location: " ++ cStr sLocation ++ ascii "\r\n" ++ connectionClose)
  | .getRequest iMethod pUri pBody iBodyLen =>
    match pUri with
    | some uri =>
      some (cStr (methodText iMethod) ++ ascii " " ++ cStr uri ++ ascii " HTTP/1.1\r\n" ++
        ascii "Content-Type: application/Json\r\n" ++ contentLength iBodyLen ++
        connectionClose ++ cStr pBody)
    | none =>
      some (cStr (methodText iMethod) ++ ascii "  / HTTP/1.1\r\n" ++
        ascii "Content-Type:application/Json\r\n" ++ contentLength iBodyLen ++
        connectionClose ++ cStr pBody)

/-- The caches by their addresses, and all that was touched of their arrays. -/
structure Caches where
  cache : Nat → Option AdCache := fun _ => none
  touched : List Span := []

/-- What a cache holds before its constructor is arbitrary, and so is what a buffer holds behind
its end. -/
inductive Operation where
  | construct (p : Nat) (unset : AdCache)
  | constructFrom (p : Nat) (unset : AdCache) (pBuf : Memory) (iLen : Int32)
  | constructCopy (p : Nat) (unset : AdCache) (a : Nat)
  | assign (p a : Nat)
  | clear (p : Nat)
  | write (p : Nat) (pBuff : Memory) (iLen : Int32)
  | append (p : Nat) (buff : Memory) (iLen : Int32)
  /-- A read of `AdSessionRead`, into a new cache, of all the bytes that it asks for or fewer -/
  | sessionRead (p : Nat) (unset : AdCache) (received : Memory) (n : Nat) (most : n ≤ adCacheMax)
  | http (p : Nat) (call : HttpCall)
  | socketWrite (p : Nat)

def Caches.store (w : Caches) (p : Nat) (after : Touched) : Caches where
  cache := Function.update w.cache p (some after.cache)
  touched := w.touched ++ after.spans

/-- A call on a cache that does not exist ends the run. -/
def step : Operation → Caches → Option Caches
  | .construct p unset, w => some (w.store p ⟨adSuccess, { unset with iLen := 0 }, []⟩)
  | .constructFrom p unset pBuf iLen, w => some (w.store p (unset.write pBuf iLen))
  | .constructCopy p unset a, w => (w.cache a).map fun a => w.store p (unset.assign a)
  | .assign p a, w => do
    let c ← w.cache p
    let a ← w.cache a
    return w.store p (c.assign a)
  | .clear p, w => (w.cache p).map fun c => w.store p ⟨adSuccess, { c with iLen := 0 }, []⟩
  | .write p pBuff iLen, w => (w.cache p).map fun c => w.store p (c.write pBuff iLen)
  | .append p buff iLen, w => (w.cache p).map fun c => w.store p (c.append buff iLen)
  | .sessionRead p unset received n _, w =>
    -- without bytes the new cache is deleted
    if n = 0 then some w
    else
      some (w.store p
        { cache := ⟨memcpy unset.cCache 0 received n, Int32.ofNat n⟩, spans := [⟨0, n⟩] })
  | .http p call, w => (w.cache p).map fun c =>
    match call.text with
    | some text => w.store p (c.print text)
    | none => w
  | .socketWrite p, w => (w.cache p).map fun c => w.store p ⟨adSuccess, c, c.socketSpans⟩

def AdCache.Valid (c : AdCache) : Prop := 0 ≤ c.iLen ∧ c.iLen ≤ iMaxLen

/-- Every length leaves room for the NUL, and nothing outside the arrays was touched. -/
structure Sound (w : Caches) : Prop where
  valid : ∀ p c, w.cache p = some c → c.Valid
  inside : ∀ span ∈ w.touched, span.Inside

/-- Lengths are not negative, the sum of two is an `int`, no read fills the array, and every
text fits. -/
def StepSound (operation : Operation) (w : Caches) : Prop :=
  match operation with
  | .constructFrom _ _ _ iLen | .write _ _ iLen => 0 ≤ iLen
  | .append p _ iLen =>
    0 ≤ iLen ∧ ∀ c, w.cache p = some c → iLen.toInt + c.iLen.toInt < 2 ^ 31
  | .sessionRead _ _ _ n _ => n < adCacheMax
  | .http _ call => ∀ text, call.text = some text → text.length < adCacheMax
  | .construct .. | .constructCopy .. | .assign .. | .clear .. | .socketWrite .. => True

theorem iMaxLen_toInt : iMaxLen.toInt = 8191 := rfl

theorem valid_iff {c : AdCache} : c.Valid ↔ 0 ≤ c.iLen.toInt ∧ c.iLen.toInt ≤ 8191 := by
  rw [AdCache.Valid, Int32.le_iff_toInt_le, Int32.le_iff_toInt_le, iMaxLen_toInt]
  rfl

theorem inside_iff {start : Int} {count : Nat} :
    (⟨start, count⟩ : Span).Inside ↔ 0 ≤ start ∧ start + count ≤ 8192 := Iff.rfl

theorem sizeT_of_nonneg {n : Int32} (nonneg : 0 ≤ n.toInt) : (sizeT n : Int) = n.toInt := by
  have upper := Int32.toInt_lt n
  rw [sizeT]
  omega

theorem sizeT_of_neg {n : Int32} (neg : n.toInt < 0) : (sizeT n : Int) = n.toInt + 2 ^ 64 := by
  have lower := Int32.le_toInt n
  rw [sizeT]
  omega

/-- A call that leaves a valid length and stays inside the arrays. -/
structure Kept (after : Touched) : Prop where
  valid : after.cache.Valid
  inside : ∀ span ∈ after.spans, span.Inside

variable {c : AdCache} {w : Caches} {p : Nat}

theorem fill_kept {start : Int32} {source : Memory} {count iLen : Int32} :
    Kept (c.fill start source count iLen) ↔
      0 ≤ start.toInt ∧ 0 ≤ count.toInt ∧ start.toInt + count.toInt ≤ 8192 ∧
        0 ≤ iLen.toInt ∧ iLen.toInt ≤ 8191 := by
  have upper := Int32.toInt_lt start
  have lower := Int32.le_toInt count
  constructor
  · rintro ⟨valid, inside⟩
    obtain ⟨first, last⟩ := inside_iff.mp (inside _ (.head _))
    have length := valid_iff.mp valid
    have nonneg : 0 ≤ count.toInt := by
      by_contra neg
      have huge := sizeT_of_neg (Int.not_le.mp neg)
      simp only [huge] at last
      omega
    rw [sizeT_of_nonneg nonneg] at last
    exact ⟨first, nonneg, last, length.1, length.2⟩
  · rintro ⟨first, nonneg, last, some, room⟩
    refine ⟨valid_iff.mpr ⟨some, room⟩, ?_⟩
    intro span touched
    rcases List.mem_cons.mp touched with rfl | touched
    · rw [inside_iff, sizeT_of_nonneg nonneg]
      exact ⟨first, last⟩
    · obtain rfl := List.mem_singleton.mp touched
      rw [inside_iff]
      omega

/-- A write keeps everything in place unless its length is negative. -/
theorem write_kept {pBuff : Memory} {iLen : Int32} : Kept (c.write pBuff iLen) ↔ 0 ≤ iLen := by
  have zero : (0 : Int32).toInt = 0 := rfl
  rw [AdCache.write, Int32.le_iff_toInt_le, zero]
  split
  · next more =>
    rw [Int32.lt_iff_toInt_lt, iMaxLen_toInt] at more
    rw [fill_kept, zero, iMaxLen_toInt]
    omega
  · next short =>
    rw [Int32.lt_iff_toInt_lt, iMaxLen_toInt] at short
    rw [fill_kept, zero]
    omega

theorem append_kept (valid : c.Valid) {buff : Memory} {iLen : Int32} :
    Kept (c.append buff iLen) ↔ 0 ≤ iLen ∧ iLen.toInt + c.iLen.toInt < 2 ^ 31 := by
  obtain ⟨some, room⟩ := valid_iff.mp valid
  have zero : (0 : Int32).toInt = 0 := rfl
  have lower := Int32.le_toInt iLen
  have upper := Int32.toInt_lt iLen
  have rest : (iMaxLen - c.iLen).toInt = 8191 - c.iLen.toInt := by
    rw [Int32.toInt_sub, iMaxLen_toInt]
    exact Int.bmod_eq_of_le (by omega) (by omega)
  rw [Int32.le_iff_toInt_le, zero, AdCache.append]
  by_cases fits : iLen.toInt + c.iLen.toInt < 2 ^ 31
  · have sum : (iLen + c.iLen).toInt = iLen.toInt + c.iLen.toInt := by
      rw [Int32.toInt_add]
      exact Int.bmod_eq_of_le (by omega) (by omega)
    split
    · next more =>
      rw [Int32.lt_iff_toInt_lt, iMaxLen_toInt, sum] at more
      have filled : Kept (c.fill c.iLen buff (iMaxLen - c.iLen) iMaxLen) := by
        rw [fill_kept, rest, iMaxLen_toInt]
        omega
      exact iff_of_true ⟨filled.valid, filled.inside⟩ (by omega)
    · next short =>
      rw [Int32.lt_iff_toInt_lt, iMaxLen_toInt, sum] at short
      rw [fill_kept, Int32.add_comm c.iLen iLen, sum]
      omega
  · -- the sum is negative, and so many bytes are copied
    have sum : (iLen + c.iLen).toInt = iLen.toInt + c.iLen.toInt - 2 ^ 32 := by
      rw [Int32.toInt_add]
      have shifted := Int.sub_bmod_right (iLen.toInt + c.iLen.toInt) (2 ^ 32 : Nat)
      rw [← shifted]
      exact Int.bmod_eq_of_le (by omega) (by omega)
    have short : ¬ iMaxLen < iLen + c.iLen := by
      rw [Int32.lt_iff_toInt_lt, iMaxLen_toInt, sum]
      omega
    rw [if_neg short, fill_kept]
    omega

theorem print_kept {text : Bytes} : Kept (c.print text) ↔ text.length < adCacheMax := by
  have max : adCacheMax = 8192 := rfl
  have inside : ∀ span ∈ (c.print text).spans, span.Inside := by
    intro span touched
    obtain rfl := List.mem_singleton.mp touched
    rw [inside_iff]
    simp only [max]
    omega
  have length : (c.print text).cache.Valid ↔ text.length < adCacheMax := by
    rw [valid_iff, AdCache.print, max]
    by_cases long : text.length < 2 ^ 31
    · simp only [if_pos long]
      rw [Int32.toInt_ofNat_of_lt long]
      omega
    · have none : (-1 : Int32).toInt = -1 := rfl
      simp only [if_neg long, none]
      omega
  exact ⟨fun kept => length.mp kept.valid, fun fits => ⟨length.mpr fits, inside⟩⟩

theorem socketSpans_inside (valid : c.Valid) : ∀ span ∈ c.socketSpans, span.Inside := by
  obtain ⟨some, room⟩ := valid_iff.mp valid
  intro span touched
  rw [AdCache.socketSpans] at touched
  split at touched
  · cases touched
  · obtain rfl := List.mem_singleton.mp touched
    rw [inside_iff, sizeT_of_nonneg some]
    omega

/-- A call on one cache, and nothing but the call. -/
theorem sound_store (sound : Sound w) {after : Touched} :
    Sound (w.store p after) ↔ Kept after := by
  constructor
  · intro stored
    refine ⟨stored.valid p after.cache (by simp [Caches.store]), fun span touched => ?_⟩
    exact stored.inside span (List.mem_append_right _ touched)
  · intro kept
    constructor
    · intro q c found
      by_cases same : q = p
      · subst same
        obtain rfl : after.cache = c := by simpa [Caches.store] using found
        exact kept.valid
      · exact sound.valid q c (by simpa [Caches.store, same] using found)
    · intro span touched
      rcases List.mem_append.mp touched with touched | touched
      · exact sound.inside span touched
      · exact kept.inside span touched

theorem kept_empty (m : AdCache) : Kept ⟨adSuccess, { m with iLen := 0 }, []⟩ := by
  refine ⟨valid_iff.mpr ⟨le_rfl, ?_⟩, ?_⟩
  · change (0 : Int) ≤ 8191
    decide
  · intro span touched
    cases touched

/-- A valid cache is copied as it is. -/
theorem assign_kept {a : AdCache} (valid : a.Valid) : Kept (c.assign a) :=
  write_kept.mpr valid.1

theorem read_kept {m : AdCache} {received : Memory} {n : Nat} (most : n ≤ adCacheMax) :
    Kept { cache := ⟨memcpy m.cCache 0 received n, Int32.ofNat n⟩, spans := [⟨0, n⟩] } ↔
      n < adCacheMax := by
  have max : adCacheMax = 8192 := rfl
  rw [max] at most ⊢
  have length : (Int32.ofNat n).toInt = n := Int32.toInt_ofNat_of_lt (by omega)
  constructor
  · intro kept
    have room := (valid_iff.mp kept.valid).2
    simp only [length] at room
    omega
  · intro fits
    refine ⟨valid_iff.mpr ?_, ?_⟩
    · simp only [length]
      omega
    · intro span touched
      obtain rfl := List.mem_singleton.mp touched
      rw [inside_iff]
      omega

/-- A step keeps the lengths and the arrays exactly under the condition on it. -/
theorem step_sound {operation : Operation} {after : Caches} (sound : Sound w)
    (stepped : step operation w = some after) : Sound after ↔ StepSound operation w := by
  cases operation with
  | construct p unset =>
    obtain rfl := Option.some.inj stepped
    exact iff_of_true ((sound_store sound).mpr (kept_empty unset)) trivial
  | constructFrom p unset pBuf iLen =>
    obtain rfl := Option.some.inj stepped
    exact (sound_store sound).trans write_kept
  | constructCopy p unset a =>
    obtain ⟨a, found, rfl⟩ := Option.map_eq_some_iff.mp stepped
    exact iff_of_true ((sound_store sound).mpr (assign_kept (sound.valid _ a found))) trivial
  | assign p a =>
    obtain ⟨c, _, rest⟩ := Option.bind_eq_some_iff.mp stepped
    obtain ⟨a, found, same⟩ := Option.bind_eq_some_iff.mp rest
    obtain rfl := Option.some.inj same
    exact iff_of_true ((sound_store sound).mpr (assign_kept (sound.valid _ a found))) trivial
  | clear p =>
    obtain ⟨c, _, rfl⟩ := Option.map_eq_some_iff.mp stepped
    exact iff_of_true ((sound_store sound).mpr (kept_empty c)) trivial
  | write p pBuff iLen =>
    obtain ⟨c, _, rfl⟩ := Option.map_eq_some_iff.mp stepped
    exact (sound_store sound).trans write_kept
  | append p buff iLen =>
    obtain ⟨c, found, rfl⟩ := Option.map_eq_some_iff.mp stepped
    rw [sound_store sound, append_kept (sound.valid p c found), StepSound]
    simp [found]
  | sessionRead p unset received n most =>
    simp only [step] at stepped
    split at stepped
    · next none =>
      obtain rfl := Option.some.inj stepped
      subst none
      exact iff_of_true sound (by decide : 0 < adCacheMax)
    · obtain rfl := Option.some.inj stepped
      exact (sound_store sound).trans (read_kept most)
  | http p call =>
    obtain ⟨c, _, rfl⟩ := Option.map_eq_some_iff.mp stepped
    rw [StepSound]
    cases printed : call.text with
    | none => simpa using sound
    | some text => simpa using (sound_store sound).trans print_kept
  | socketWrite p =>
    obtain ⟨c, found, rfl⟩ := Option.map_eq_some_iff.mp stepped
    have valid := sound.valid p c found
    exact iff_of_true ((sound_store sound).mpr ⟨valid, socketSpans_inside valid⟩) trivial

/-- Along every run the lengths are valid and nothing outside the arrays is touched exactly as
long as lengths are not negative, the sum of two is an `int`, no read fills its array and every
text fits. -/
theorem sound_run_iff (operations : List Operation) :
    (∀ w ∈ StepRuns.states step {} operations, Sound w) ↔
      StepRuns.Throughout step StepSound {} operations := by
  have begun : Sound {} := by
    constructor
    · intro p c found
      cases found
    · intro span touched
      cases touched
  have keep : ∀ (operation : Operation) (w after : Caches),
      True → step operation w = some after → True := fun _ _ _ _ _ => trivial
  exact StepRuns.states_iff_throughout keep
    (fun _ _ _ _ sound stepped => step_sound sound stepped) trivial begun operations

/-- A read that fills the array leaves a length that is one too large. -/
theorem fullRead_long : ¬ ∀ operations,
    ∀ w ∈ StepRuns.states step {} operations, Sound w := by
  intro all
  let unset : AdCache := ⟨fun _ => 0, 0⟩
  have sound := all [.sessionRead 1 unset (fun _ => 65) adCacheMax le_rfl] _ (.tail _ (.head _))
  have valid := sound.valid 1 ⟨memcpy unset.cCache 0 (fun _ => 65) adCacheMax, 8192⟩ rfl
  exact absurd valid.2 (by decide)

end CacheLengths
