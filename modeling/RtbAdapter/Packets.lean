import RtbAdapter.RecordWriter
import RtbAdapter.RecordWalk

/-!
# Packets of a fresh protocol object

A fresh object sends a compressed body behind a head of twelve bytes. What it
sends is described once, by its head and its packed body, and so is what a
decoder finds in any memory that holds such a packet.
-/

namespace Packets

open ByteWords ByteMemory KeyValueStream RtbBase ZlibCalls NetProtocol RecordWriter RecordWalk

/-- The head a fresh object sends. -/
def sentHead (type verb : UInt8) (total length : Nat) : AdProtocolHead :=
  { AdRtbProtocol.fresh.head with type := type, verb := verb, total := total, length := length }

/-- The end of an encoder without an expand head. -/
theorem writeHead_sent (type verb : UInt8) (total : Nat) {length : Nat} (short : length ≤ 4096)
    (exHead : Bytes) (writes : List Write) :
    writeHead ⟨sentHead type verb total length, exHead⟩ 12 length writes =
      ⟨12 + length, writes ++ [⟨0, headBytes (sentHead type verb total length)⟩],
        ⟨sentHead type verb total length, exHead⟩⟩ := by
  have plain : ¬ (sentHead type verb total length).expand = adProtocolExpand1 := by
    change ¬ (0 : UInt8) = 1
    decide
  rw [writeHead, if_neg plain, toInt32_of_range (by omega) (by omega), add_comm]

/-- A packet in memory: the head and the body behind it. -/
structure Holds (m : Memory) (h : AdProtocolHead) (packed : Bytes) : Prop where
  head : readBytes m 0 12 = headBytes h
  body : readBytes m 12 packed.length = packed

@[simp] theorem headBytes_length (h : AdProtocolHead) : (headBytes h).length = 12 := by
  simp [headBytes]

theorem holds_after (buffer : Memory) (writes : List Write) (h : AdProtocolHead)
    (packed : Bytes) :
    Holds (replay buffer (writes ++ copyBack 12 packed ++ [⟨0, headBytes h⟩])) h packed := by
  have size : (12 : Nat) = (headBytes h).length := (headBytes_length h).symm
  constructor
  · rw [replay_append, replay_cons, replay_nil]
    have own := readBytes_put_self
      (replay buffer (writes ++ copyBack 12 packed)) ⟨0, headBytes h⟩
    rwa [headBytes_length] at own
  · rw [replay_append, replay_append, replay_cons, replay_nil,
      readBytes_put_disjoint _ _ _ _ (.inr (by simp))]
    simp only [copyBack, replay_cons, replay_nil]
    rw [readBytes_put_disjoint _ _ _ _ (.inl (le_refl _))]
    exact readBytes_put_self _ ⟨12, packed⟩

theorem Holds.agree {m m' : Memory} {h : AdProtocolHead} {packed : Bytes}
    (holds : Holds m h packed) (agree : AgreeBelow (12 + packed.length) m m') :
    Holds m' h packed where
  head := by
    rw [← holds.head]
    exact (readBytes_agree agree (by omega) (by omega)).symm
  body := by
    conv_rhs => rw [← holds.body]
    exact (readBytes_agree agree (by omega) (by omega)).symm

theorem Holds.flag {m : Memory} {h : AdProtocolHead} {packed : Bytes}
    (holds : Holds m h packed) : m 0 = adProtocolFlag := by
  have head := holds.head
  rw [← headBytes_length h, headBytes, List.append_assoc, List.cons_append] at head
  exact (readBytes_cons_iff.mp head).1

/-- The exchange travels in one byte. -/
theorem adx_byte {adx : UInt32} (high : adx ≤ 255) : adx.toUInt8.toUInt32 = adx := by
  apply UInt32.toNat_inj.mp
  have small := UInt32.le_iff_toNat_le.mp high
  simp only [UInt8.toNat_toUInt32, UInt32.toNat_toUInt8]
  exact Nat.mod_eq_of_lt (by simpa [Nat.lt_succ_iff] using small)

theorem packBits_sent (type verb : UInt8) (total length : Nat) :
    packBits (sentHead type verb total length) = 0x1a := by
  change packBits AdRtbProtocol.fresh.head = 0x1a
  decide

theorem unpackBits_sent (h : AdProtocolHead) :
    unpackBits 0x1a h =
      { h with version := 1, protocol := 1, wide := 0, response := 1, expand := 0 } := by
  simp only [unpackBits, AdProtocolHead.mk.injEq, true_and, and_true]
  decide

/-- A decoder reads back the head a fresh object sends. -/
theorem Holds.readHead {m : Memory} {packed : Bytes} {type verb : UInt8} {total length : Nat}
    (holds : Holds m (sentHead type verb total length) packed)
    (small : total < 2 ^ 16) (short : length < 2 ^ 31) :
    readHead m = sentHead type verb total length := by
  have head := holds.head
  rw [← headBytes_length (sentHead type verb total length)] at head
  simp only [headBytes, List.cons_append, List.nil_append] at head
  obtain ⟨flag, head⟩ := readBytes_cons_iff.mp head
  obtain ⟨bits, head⟩ := readBytes_cons_iff.mp head
  obtain ⟨type', head⟩ := readBytes_cons_iff.mp head
  obtain ⟨verb', head⟩ := readBytes_cons_iff.mp head
  obtain ⟨attr, head⟩ := readBytes_cons_iff.mp head
  obtain ⟨result, head⟩ := readBytes_cons_iff.mp head
  obtain ⟨total', length'⟩ := readBytes_append_iff.mp head
  norm_num at bits type' verb' attr result total' length'
  have word : toUInt32 (sentHead type verb total length).length = length := by
    simp only [sentHead, toUInt32]
    omega
  have totalBack : beNat (beBytes 2 total) = total := beNat_beBytes_of_lt (by omega)
  have lengthBack : toInt32 (beNat (beBytes 4 length)) = length := beNat_length short
  have total'' : readBytes m 6 2 = beBytes 2 total := total'
  have length'' : readBytes m 8 4 = beBytes 4 length := by rw [length', word]
  simp only [NetProtocol.readHead, flag, bits, type', verb', attr, result, total'', length'',
    totalBack, lengthBack, packBits_sent, unpackBits_sent]
  rfl

/-- The loop over what `uncompress` leaves of a packed body. -/
def unpackedWalk {T L : Type} [DecidableEq T] [DecidableEq L] (z : Zlib) (fault : ZlibFault)
    (table : Table T L) (packed : Bytes) (total : Nat) : Walk T L :=
  let out := z.uncompress fault adKbytes4 packed
  walk table .scratch out.memory 0 out.length total 0 Message.empty

variable {z : Zlib} {fault : ZlibFault}

variable (z fault) in
theorem Holds.walkBody {T L : Type} [DecidableEq T] [DecidableEq L] (table : Table T L)
    {m : Memory} {packed : Bytes} {type verb : UInt8} {total : Nat}
    (holds : Holds m (sentHead type verb total packed.length) packed)
    (short : packed.length ≤ 4096) :
    (walkBody z fault table m (sentHead type verb total packed.length)
        Message.empty).message = (unpackedWalk z fault table packed total).message ∧
      (walkBody z fault table m (sentHead type verb total packed.length)
        Message.empty).returned = (unpackedWalk z fault table packed total).returned := by
  have source : readBytes m 12 (toULong packed.length) = packed := by
    rw [toULong_of_nonneg (by omega) (by omega), Int.toNat_natCast]
    exact holds.body
  have size : headSize (sentHead type verb total packed.length) = 12 := rfl
  have attr : (sentHead type verb total packed.length).attr = adProtocolBodyComp := rfl
  have length : (sentHead type verb total packed.length).length = packed.length := rfl
  rw [NetProtocol.walkBody]
  simp only [if_pos attr, size, length, source]
  exact ⟨rfl, rfl⟩

variable (z fault) in
/-- What the response decoder makes of a packet, from the loop over its body. -/
theorem response_decoded (p : AdRtbProtocol) {m : Memory} {packed : Bytes} {type verb : UInt8}
    {total : Nat} (holds : Holds m (sentHead type verb total packed.length) packed)
    (small : total < 2 ^ 16) (short : packed.length ≤ 4096) :
    let w := unpackedWalk z fault responseTable packed total
    let d := p.tlvToResponse z fault m (12 + packed.length)
    (w.returned = true → d.ret = some adSuccess ∧
      d.value = { toMessage := w.message, adx := type.toUInt32 }) ∧
    (w.returned = false → d.ret = none) := by
  have head := holds.readHead small (by omega)
  obtain ⟨message, returned⟩ := holds.walkBody z fault responseTable short
  have fits : ¬ ((12 + packed.length : Int) <
      toInt32 (headSize (sentHead type verb total packed.length) +
        (sentHead type verb total packed.length).length) ∨
      (sentHead type verb total packed.length).result ≠ adProtocolResultOk) := by
    rw [show headSize (sentHead type verb total packed.length) = 12 from rfl,
      show (sentHead type verb total packed.length).length = packed.length from rfl,
      toInt32_of_range (by omega) (by omega)]
    simp [sentHead, AdRtbProtocol.fresh]
  dsimp only
  rw [← message, ← returned, AdRtbProtocol.tlvToResponse, if_neg (not_not.mpr holds.flag)]
  simp only [head]
  rw [if_neg fits]
  have start : AdRtbResponse.clear.toMessage = Message.empty := rfl
  rw [start]
  refine ⟨fun done => ?_, fun thrown => ?_⟩
  · rw [if_pos done]
    exact ⟨rfl, rfl⟩
  · rw [if_neg (by rw [thrown]; decide)]

variable (z fault) in
/-- What the request decoder makes of a packet: its own kind of transaction is set last. -/
theorem request_decoded (p : AdRtbProtocol) (now : Time) {m : Memory} {packed : Bytes}
    {type verb : UInt8} {total : Nat}
    (holds : Holds m (sentHead type verb total packed.length) packed)
    (small : total < 2 ^ 16) (short : packed.length ≤ 4096) :
    let w := unpackedWalk z fault requestTable packed total
    let d := p.tlvToRequest z fault now m (12 + packed.length)
    (w.returned = true → d.ret = some adSuccess ∧
      d.value = received now type.toUInt32 w.message) ∧
    (w.returned = false → d.ret = none) := by
  have head := holds.readHead small (by omega)
  obtain ⟨message, returned⟩ := holds.walkBody z fault requestTable short
  have fits : ¬ (12 + packed.length : Int) <
      toInt32 (headSize (sentHead type verb total packed.length) +
        (sentHead type verb total packed.length).length) := by
    rw [show headSize (sentHead type verb total packed.length) = 12 from rfl,
      show (sentHead type verb total packed.length).length = packed.length from rfl,
      toInt32_of_range (by omega) (by omega)]
    omega
  have long : ¬ (12 + packed.length : Int) < adProtocolHeadLen := by
    simp only [adProtocolHeadLen]
    omega
  dsimp only
  rw [← message, ← returned, AdRtbProtocol.tlvToRequest, if_neg long,
    if_neg (not_not.mpr holds.flag)]
  simp only [head]
  rw [if_neg fits]
  have start : (AdRtbRequest.clear now).toMessage = Message.empty := rfl
  rw [start]
  refine ⟨fun done => ?_, fun thrown => ?_⟩
  · rw [if_pos done]
    exact ⟨rfl, rfl⟩
  · rw [if_neg (by rw [thrown]; decide)]

/-- The source `compress` is given for these records. -/
def handed (buffer : Memory) (kvs : List (UInt8 × Bytes)) : Bytes :=
  compressSource buffer 12 (toInt32 (stream kvs).length) (placed 12 kvs)

theorem handed_length (buffer : Memory) (kvs : List (UInt8 × Bytes)) :
    (handed buffer kvs).length = toULong (toInt32 (stream kvs).length) := by
  simp [handed, compressSource]

/-- A body below two gigabytes is handed over as it is. -/
theorem handed_eq (buffer : Memory) {kvs : List (UInt8 × Bytes)}
    (short : (stream kvs).length < 2 ^ 31) : handed buffer kvs = stream kvs :=
  compressSource_placed buffer 12 short

/-- A handed body that fits is a beginning of the stream, and what is missing of the
stream is a multiple of `2 ^ 32` bytes. -/
theorem handed_starts {buffer : Memory} {kvs : List (UInt8 × Bytes)}
    (fits : (handed buffer kvs).length ≤ 4096) :
    handed buffer kvs <+: stream kvs ∧
      ((stream kvs).length < 2 ^ 32 → handed buffer kvs = stream kvs) := by
  rw [handed_length] at fits
  have range := toInt32_range (stream kvs).length
  have nonneg : 0 ≤ toInt32 (stream kvs).length := by
    by_contra negative
    have large := toULong_of_neg range.1 (by omega)
    omega
  obtain ⟨k, hk⟩ := toInt32_sub_dvd (stream kvs).length
  rw [toULong_of_nonneg nonneg (by omega)] at fits
  have below : (toInt32 (stream kvs).length).toNat ≤ (stream kvs).length := by omega
  constructor
  · rw [handed, compressSource, toULong_of_nonneg nonneg (by omega),
      readBytes_take _ _ below, replay_placed]
    exact List.take_prefix _ _
  · intro small
    exact handed_eq buffer (by omega)

/-- A packed body whose output is unspecified may come back as nothing. -/
theorem unpackedWalk_lost {T L : Type} [DecidableEq T] [DecidableEq L] {table : Table T L}
    {packed : Bytes} {total : Nat}
    (fails : ∀ bs, z.inflate packed = some bs → adKbytes4 < bs.length)
    (nothing : fault.reported = 0) :
    unpackedWalk z fault table packed total = ⟨Message.empty, true, [], []⟩ := by
  rw [unpackedWalk, uncompress_failed fails]
  cases total with
  | zero => rfl
  | succ total =>
    simp only [nothing]
    exact walk_end (by decide)

theorem unpackedWalk_ok {T L : Type} [DecidableEq T] [DecidableEq L] {table : Table T L}
    {source : Bytes} (total : Nat) (fits : source.length ≤ adKbytes4) :
    unpackedWalk z fault table (z.deflate source) total =
      walk table .scratch (put fault.scratch ⟨0, source⟩) 0 source.length total 0
        Message.empty := by
  rw [unpackedWalk, uncompress_ok (z.inflate_deflate source) fits]

variable (z fault) in
/-- A stream that fits the limit comes back record by record. -/
theorem unpackedWalk_stream {T L : Type} [DecidableEq T] [DecidableEq L] (table : Table T L)
    {kvs : List (UInt8 × Bytes)} (fits : (stream kvs).length ≤ 4096) :
    let w := unpackedWalk z fault table (z.deflate (stream kvs)) kvs.length
    w.returned = true ∧ w.message = load table Message.empty kvs := by
  dsimp only
  rw [unpackedWalk_ok kvs.length fits]
  refine walk_stream kvs 0 ?_ le_rfl (by omega) (by omega) (.inl rfl)
  exact readBytes_put_self fault.scratch ⟨0, stream kvs⟩

end Packets
