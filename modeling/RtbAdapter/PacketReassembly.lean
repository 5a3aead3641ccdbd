import RtbAdapter.NetProtocol

/-!
# Reassembly of packets

A session counts the bytes it has read of a packet from -1 on. A packet that comes
in one read is handed on at once; of a packet that comes in several reads one byte
is always missing, and it stays until the head of another packet clears it.
-/

namespace PacketReassembly

open ByteWords
open NetProtocol (adFailure)

def adCacheMax : Nat := 8 * 1024

/-- `AdCache::Append` -/
def append (cache buff : Bytes) : Bytes :=
  cache ++ buff.take (adCacheMax - 1 - cache.length)

structure AdSession where
  packetLen : Int := adFailure
  readLen : Int := adFailure
  readCache : List Bytes := []
  deriving DecidableEq

/-- `AdSessionCompletePacket`: what it returns for a read, and the session after it. Without an
interface every read is a packet. -/
def AdSession.completePacket (interface : Option (Bytes → Int)) (s : AdSession) (cache : Bytes) :
    Option Bytes × AdSession :=
  match interface with
  | none => (some cache, s)
  | some packetLen =>
    let len := packetLen cache
    let cleared : AdSession := if 0 ≤ s.packetLen then {} else s
    if len = cache.length then (some cache, cleared)
    else if len = adFailure then
      if s.packetLen = adFailure then (some cache, s)
      else
        let s := { s with
          readLen := s.readLen + cache.length, readCache := s.readCache ++ [cache] }
        if s.packetLen = s.readLen then
          (s.readCache.head?.map fun all => s.readCache.tail.foldl append all, {})
        else if s.readLen < s.packetLen then (none, s)
        else (none, {})
    else
      (none, { packetLen := len, readLen := cleared.readLen + cache.length,
               readCache := cleared.readCache ++ [cache] })

/-- The reads of a session, one after the other. -/
def AdSession.readAll (interface : Option (Bytes → Int)) (s : AdSession) :
    List Bytes → List (Option Bytes) × AdSession
  | [] => ([], s)
  | cache :: caches =>
    let (out, s) := s.completePacket interface cache
    let (outs, s) := s.readAll interface caches
    (out :: outs, s)

/-- A session that is ready for a packet, possibly over the rest of another one. -/
def Settled (s : AdSession) : Prop := s = {} ∨ 0 ≤ s.packetLen

/-- A packet as it comes in: the reads join to it, and its head says how long it is. -/
structure Arrives (packetLen : Bytes → Int) (packet first : Bytes) (later : List Bytes) :
    Prop where
  split : first ++ later.flatten = packet
  short : packet.length ≤ 8191
  head : packetLen first = packet.length
  body : ∀ cache ∈ later, packetLen cache = adFailure
  read : ∀ cache ∈ first :: later, cache ≠ []

variable {packetLen : Bytes → Int} {packet first : Bytes} {later : List Bytes} {s : AdSession}

/-- A packet that comes in one read. -/
theorem completePacket_whole (settled : Settled s) (whole : packetLen packet = packet.length) :
    s.completePacket (some packetLen) packet = (some packet, {}) := by
  rw [AdSession.completePacket]
  dsimp only
  rw [if_pos whole]
  rcases settled with rfl | unfinished
  · rfl
  · rw [if_pos unfinished]

/-- The head of a packet of which more is to come. -/
theorem completePacket_head (settled : Settled s) (long : packetLen first ≠ first.length)
    (head : 0 ≤ packetLen first) :
    s.completePacket (some packetLen) first =
      (none, ⟨packetLen first, first.length - 1, [first]⟩) := by
  have cleared : (if 0 ≤ s.packetLen then {} else s : AdSession) = {} := by
    rcases settled with rfl | unfinished
    · rfl
    · rw [if_pos unfinished]
  have length : packetLen first ≠ adFailure := by
    rw [adFailure]
    omega
  rw [AdSession.completePacket]
  dsimp only
  rw [if_neg long, if_neg length, cleared]
  simp [adFailure]
  omega

/-- More of a packet, as long as the count stays behind. -/
theorem completePacket_more {cache : Bytes} {total : Int} {count : Int} {caches : List Bytes}
    (body : packetLen cache = adFailure) (head : 0 ≤ total)
    (behind : count + cache.length < total) :
    AdSession.completePacket (some packetLen) ⟨total, count, caches⟩ cache =
      (none, ⟨total, count + cache.length, caches ++ [cache]⟩) := by
  have other : packetLen cache ≠ cache.length := by
    rw [body, adFailure]
    omega
  have length : total ≠ adFailure := by
    rw [adFailure]
    omega
  rw [AdSession.completePacket]
  dsimp only
  rw [if_neg other, if_pos body, if_neg length, if_neg (by omega), if_pos behind]

/-- The rest of a packet is kept and never handed on. -/
theorem readAll_more {total count : Int} {caches : List Bytes}
    (body : ∀ cache ∈ later, packetLen cache = adFailure) (head : 0 ≤ total)
    (behind : count + later.flatten.length < total) :
    AdSession.readAll (some packetLen) ⟨total, count, caches⟩ later =
      (List.replicate later.length none,
        ⟨total, count + later.flatten.length, caches ++ later⟩) := by
  induction later generalizing count caches with
  | nil => simp [AdSession.readAll]
  | cons cache later ih =>
    obtain ⟨here, body⟩ := List.forall_mem_cons.mp body
    rw [List.flatten_cons, List.length_append] at behind
    push_cast at behind
    rw [AdSession.readAll, completePacket_more here head (by omega)]
    dsimp only
    rw [ih body (by omega), List.length_cons, List.replicate_succ, List.flatten_cons,
      List.length_append, List.append_assoc, List.singleton_append]
    push_cast
    rw [add_assoc]

/-- A packet in several reads gives nothing. -/
theorem readAll_split (settled : Settled s) (arrives : Arrives packetLen packet first later)
    (split : later ≠ []) :
    s.readAll (some packetLen) (first :: later) =
      (List.replicate (first :: later).length none,
        ⟨packet.length, packet.length - 1, first :: later⟩) := by
  have lengths := congrArg List.length arrives.split
  rw [List.length_append] at lengths
  have rest : 0 < later.flatten.length := by
    obtain ⟨cache, later', rfl⟩ := List.exists_cons_of_ne_nil split
    have some' := List.length_pos_of_ne_nil
      (arrives.read cache (List.mem_cons_of_mem _ List.mem_cons_self))
    rw [List.flatten_cons, List.length_append]
    omega
  have head : packetLen first = packet.length := arrives.head
  rw [AdSession.readAll, completePacket_head settled (by omega) (by omega), head]
  dsimp only
  have count : (first.length : Int) - 1 + later.flatten.length = packet.length - 1 := by omega
  rw [readAll_more arrives.body (by omega) (by omega), count, List.length_cons,
    List.replicate_succ, List.singleton_append]

/-- After any packet the session takes the next one. -/
theorem settled_readAll (settled : Settled s) (arrives : Arrives packetLen packet first later) :
    Settled (s.readAll (some packetLen) (first :: later)).2 := by
  by_cases split : later = []
  · subst split
    obtain rfl : first = packet := by simpa using arrives.split
    rw [AdSession.readAll, completePacket_whole settled arrives.head]
    exact .inl rfl
  · rw [readAll_split settled arrives split]
    exact .inr (by simp)

/-- The reads of several packets hand on those that came in one read, and only those. -/
theorem readAll_packets {packets : List (Bytes × Bytes × List Bytes)}
    (arrive : ∀ p ∈ packets, Arrives packetLen p.1 p.2.1 p.2.2) (settled : Settled s) :
    (s.readAll (some packetLen) (packets.flatMap fun p => p.2.1 :: p.2.2)).1.filterMap id =
      (packets.filter fun p => p.2.2 = []).map Prod.fst := by
  have joined : ∀ (xs ys : List Bytes) (s : AdSession),
      s.readAll (some packetLen) (xs ++ ys) =
        ((s.readAll (some packetLen) xs).1 ++
            ((s.readAll (some packetLen) xs).2.readAll (some packetLen) ys).1,
          ((s.readAll (some packetLen) xs).2.readAll (some packetLen) ys).2) := by
    intro xs ys
    induction xs with
    | nil => exact fun _ => rfl
    | cons x xs ih =>
      intro s
      simp only [List.cons_append, AdSession.readAll, ih]
  induction packets generalizing s with
  | nil => rfl
  | cons p packets ih =>
    obtain ⟨packet, first, later⟩ := p
    obtain ⟨here, arrive⟩ := List.forall_mem_cons.mp arrive
    rw [List.flatMap_cons, joined, List.filterMap_append,
      ih arrive (settled_readAll settled here)]
    by_cases split : later = []
    · subst split
      obtain rfl : first = packet := by simpa using here.split
      rw [AdSession.readAll, completePacket_whole settled here.head]
      simp [AdSession.readAll]
    · rw [readAll_split settled here split, List.filter_cons_of_neg (by simpa using split)]
      simp

/-- The reads of a packet give nothing but the packet at the last one, and leave a ready session. -/
def Reassembled (packetLen : Bytes → Int) (packet first : Bytes) (later : List Bytes) : Prop :=
  AdSession.readAll (some packetLen) {} (first :: later) =
    (List.replicate later.length none ++ [some packet], {})

/-- A packet is reassembled exactly when there is nothing to reassemble. -/
theorem reassembled_iff (arrives : Arrives packetLen packet first later) :
    Reassembled packetLen packet first later ↔ later = [] := by
  constructor
  · intro reassembled
    by_contra split
    rw [Reassembled, readAll_split (.inl rfl) arrives split] at reassembled
    have state := congrArg AdSession.readCache (Prod.mk.inj reassembled).2
    simp at state
  · rintro rfl
    obtain rfl : first = packet := by simpa using arrives.split
    rw [Reassembled, AdSession.readAll, completePacket_whole (.inl rfl) arrives.head]
    rfl

/-- The head of a request with a body of two bytes. -/
def postHead : Bytes := ascii "POST / HTTP/1.1\nContent-Length: 2\n\n"

def postLen (cache : Bytes) : Int :=
  if postHead.isPrefixOf cache then (postHead.length + 2 : Nat) else adFailure

theorem post_in_one_read :
    Reassembled postLen (postHead ++ ascii "ab") (postHead ++ ascii "ab") [] :=
  (reassembled_iff ⟨by decide, by decide, by decide, by decide, by decide⟩).mpr rfl

/-- The same request with its body in a second read is swallowed. -/
theorem post_in_two_reads :
    Arrives postLen (postHead ++ ascii "ab") postHead [ascii "ab"] ∧
      ¬ Reassembled postLen (postHead ++ ascii "ab") postHead [ascii "ab"] ∧
      AdSession.readAll (some postLen) {} [postHead, ascii "ab"] =
        ([none, none], ⟨37, 36, [postHead, ascii "ab"]⟩) := by
  refine ⟨⟨by decide, by decide, by decide, by decide, by decide⟩, ?_, by decide⟩
  rw [Reassembled]
  decide

end PacketReassembly
