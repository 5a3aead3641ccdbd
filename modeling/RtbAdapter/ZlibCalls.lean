import RtbAdapter.ByteMemory

/-!
# The two calls into zlib

`compress` and `uncompress` report success exactly when their result fits the
limit they were given, and then undo each other. When they report an error,
what they leave behind is unspecified up to that limit. A failure to allocate
is not represented.
-/

namespace ZlibCalls

open ByteWords ByteMemory

structure Zlib where
  deflate : Bytes → Bytes
  inflate : Bytes → Option Bytes
  inflate_deflate : ∀ bs, inflate (deflate bs) = some bs
  inflate_nil : inflate [] = none
  deflate_bound : ∀ bs, (deflate bs).length ≤
    bs.length + bs.length / 2 ^ 12 + bs.length / 2 ^ 14 + bs.length / 2 ^ 25 + 13

/-- The output of a call that reports an error, and the stack it is written to. -/
structure ZlibFault where
  compressed : Bytes
  produced : Bytes
  reported : Nat
  scratch : Memory

variable (z : Zlib) (fault : ZlibFault)

/-- The bytes `compress` leaves in its destination, as many as it reports. -/
def Zlib.compress (limit : Nat) (source : Bytes) : Bytes :=
  if (z.deflate source).length ≤ limit then z.deflate source else fault.compressed.take limit

/-- The destination after `uncompress`: its memory, how many of its bytes were
produced by the call, and the length the call reports. -/
structure Unpacked where
  memory : Memory
  produced : Nat
  length : Nat

def Zlib.uncompress (limit : Nat) (source : Bytes) : Unpacked :=
  let failed : Unpacked :=
    ⟨put fault.scratch ⟨0, fault.produced.take limit⟩, (fault.produced.take limit).length,
      min fault.reported limit⟩
  match z.inflate source with
  | some bs => if bs.length ≤ limit then ⟨put fault.scratch ⟨0, bs⟩, bs.length, bs.length⟩
    else failed
  | none => failed

variable {z fault} {limit : Nat} {source : Bytes}

theorem compress_length : (z.compress fault limit source).length ≤ limit := by
  unfold Zlib.compress
  split
  · assumption
  · simp

theorem compress_ok (fits : (z.deflate source).length ≤ limit) :
    z.compress fault limit source = z.deflate source := if_pos fits

theorem compress_failed (long : limit < (z.deflate source).length) :
    z.compress fault limit source = fault.compressed.take limit := if_neg (by omega)

theorem uncompress_ok {bs : Bytes} (inflates : z.inflate source = some bs)
    (fits : bs.length ≤ limit) :
    z.uncompress fault limit source = ⟨put fault.scratch ⟨0, bs⟩, bs.length, bs.length⟩ := by
  simp [Zlib.uncompress, inflates, fits]

theorem uncompress_failed (fails : ∀ bs, z.inflate source = some bs → limit < bs.length) :
    z.uncompress fault limit source =
      ⟨put fault.scratch ⟨0, fault.produced.take limit⟩, (fault.produced.take limit).length,
        min fault.reported limit⟩ := by
  cases inflates : z.inflate source with
  | none => simp [Zlib.uncompress, inflates]
  | some bs =>
    have long := fails bs inflates
    simp [Zlib.uncompress, inflates, long]

/-- Short sources always compress within a 4096 byte limit. -/
theorem deflate_short (source : Bytes) (short : source.length ≤ 4083) :
    (z.deflate source).length ≤ 4096 := by
  have bound := z.deflate_bound source
  omega

/-- A format that stores its input unchanged, as zlib does with data that does not compress. -/
def storeBytes (bs : Bytes) : Bytes := 0x78 :: bs

def restoreBytes : Bytes → Option Bytes
  | 0x78 :: bs => some bs
  | _ => none

theorem restoreBytes_storeBytes (bs : Bytes) : restoreBytes (storeBytes bs) = some bs := rfl

theorem restoreBytes_nil : restoreBytes [] = none := rfl

theorem storeBytes_bound (bs : Bytes) :
    (storeBytes bs).length ≤
      bs.length + bs.length / 2 ^ 12 + bs.length / 2 ^ 14 + bs.length / 2 ^ 25 + 13 := by
  simp only [storeBytes, List.length_cons]
  omega

def storedZlib : Zlib where
  deflate := storeBytes
  inflate := restoreBytes
  inflate_deflate := restoreBytes_storeBytes
  inflate_nil := restoreBytes_nil
  deflate_bound := storeBytes_bound

end ZlibCalls
