import RtbAdapter.Packets

/-!
# What an encoder writes to its buffer

An object that has decoded packets holds an expand head of four bytes whenever
its head asks for one. From there, whether an encoder stays inside its buffer
is decided by what the space checks let through, by the length of the packed
body, and by the bytes the checks forget: the unguarded flow record, the byte
that ends a packed body, and the expand head that is counted twice.
-/

namespace EncoderBounds

open ByteWords ByteMemory KeyValueStream RtbBase ZlibCalls NetProtocol RecordWriter Packets

/-- The states of an object that has decoded and encoded packets. -/
inductive Reachable (z : Zlib) : AdRtbProtocol → Prop where
  | fresh : Reachable z AdRtbProtocol.fresh
  | decodeRequest {p : AdRtbProtocol} (fault : ZlibFault) (now : Time) (m : Memory) (iLen : Int)
      (before : Reachable z p) : Reachable z (p.tlvToRequest z fault now m iLen).protocol
  | decodeResponse {p : AdRtbProtocol} (fault : ZlibFault) (m : Memory) (iLen : Int)
      (before : Reachable z p) : Reachable z (p.tlvToResponse z fault m iLen).protocol
  | encodeRequest {p : AdRtbProtocol} (fault : ZlibFault) (r : AdRtbRequest) (buffer : Memory)
      (iLen : Int) (before : Reachable z p) :
      Reachable z (p.requestToTlv z fault r buffer iLen).protocol
  | encodeResponse {p : AdRtbProtocol} (fault : ZlibFault) (r : AdRtbResponse) (buffer : Memory)
      (iLen : Int) (before : Reachable z p) :
      Reachable z (p.responseToTlv z fault r buffer iLen).protocol

/-- An object whose head has the expand bit holds the four bytes of an expand head. -/
def ExpandHeld (p : AdRtbProtocol) : Prop :=
  p.head.expand = adProtocolExpand1 → p.exHead.length = 4

variable {z : Zlib} {fault : ZlibFault}

theorem zero_held (exHead : Bytes) (flag : UInt8) :
    ExpandHeld ⟨{ AdProtocolHead.zero with flag := flag }, exHead⟩ := by
  intro expand
  exact absurd (show (0 : UInt8) = 1 from expand) (by decide)

theorem takeHead_held (p : AdRtbProtocol) (m : Memory) (h h' : AdProtocolHead)
    (same : h'.expand = h.expand) : ExpandHeld { p.takeHead m h with head := h' } := by
  intro expand
  have taken : h.expand = adProtocolExpand1 := same ▸ expand
  simp [AdRtbProtocol.takeHead, taken]

theorem headAfter_expand (m : Memory) (h : AdProtocolHead) :
    (headAfter z fault m h).expand = h.expand := by
  rw [headAfter]
  split <;> rfl

theorem writeHead_protocol (p : AdRtbProtocol) (size dataLen : Int) (writes : List Write) :
    (writeHead p size dataLen writes).protocol = p := by
  rw [writeHead]
  split <;> rfl

theorem request_held {p : AdRtbProtocol} (held : ExpandHeld p) (r : AdRtbRequest)
    (buffer : Memory) (iLen : Int) :
    ExpandHeld (p.requestToTlv z fault r buffer iLen).protocol := by
  rw [AdRtbProtocol.requestToTlv]
  dsimp only
  split
  · exact held
  · split <;> rw [writeHead_protocol] <;> exact held

theorem response_held {p : AdRtbProtocol} (held : ExpandHeld p) (r : AdRtbResponse)
    (buffer : Memory) (iLen : Int) :
    ExpandHeld (p.responseToTlv z fault r buffer iLen).protocol := by
  rw [AdRtbProtocol.responseToTlv]
  dsimp only
  split
  · rw [writeHead_protocol]
    exact held
  · split
    · exact held
    · split
      · split
        · exact held
        · rw [writeHead_protocol]
          exact held
      · rw [writeHead_protocol]
        exact held

/-- Every reachable object holds the expand head its head asks for. -/
theorem reachable_held {p : AdRtbProtocol} (reachable : Reachable z p) : ExpandHeld p := by
  induction reachable with
  | fresh => exact fun expand => absurd (show (0 : UInt8) = 1 from expand) (by decide)
  | decodeRequest fault now m iLen _ _ =>
    rw [AdRtbProtocol.tlvToRequest]
    dsimp only
    split
    · exact zero_held _ 0
    · split
      · exact zero_held _ _
      · split
        · exact takeHead_held _ m (readHead m) _ rfl
        · split <;> exact takeHead_held _ m _ _ (headAfter_expand m _)
  | decodeResponse fault m iLen _ _ =>
    rw [AdRtbProtocol.tlvToResponse]
    dsimp only
    split
    · exact zero_held _ _
    · split
      · exact takeHead_held _ m (readHead m) _ rfl
      · split <;> exact takeHead_held _ m _ _ (headAfter_expand m _)
  | encodeRequest fault r buffer iLen _ held => exact request_held held r buffer iLen
  | encodeResponse fault r buffer iLen _ held => exact response_held held r buffer iLen

/-- Every write is inside the buffer, and so is the length a success returns. -/
def Stays (iLen : Int) (e : Encoded) : Prop :=
  (∀ w ∈ e.writes, w.Inside iLen) ∧ (0 < e.ret → e.ret ≤ iLen)

def RequestStays (z : Zlib) (p : AdRtbProtocol) (r : AdRtbRequest) (iLen : Int) : Prop :=
  ∀ (fault : ZlibFault) (buffer : Memory), Stays iLen (p.requestToTlv z fault r buffer iLen)

def ResponseStays (z : Zlib) (p : AdRtbProtocol) (r : AdRtbResponse) (iLen : Int) : Prop :=
  ∀ (fault : ZlibFault) (buffer : Memory), Stays iLen (p.responseToTlv z fault r buffer iLen)

/-- The four bytes of an expand head that the returned length counts once more. -/
def expandTail (h : AdProtocolHead) : Int :=
  if h.expand = adProtocolExpand1 then adProtocolHeadExpandLen else 0

/-- What a packed body needs behind it: the byte that ends it, or the four bytes the
returned length counts once more. -/
def packedTail (h : AdProtocolHead) : Int :=
  if h.expand = adProtocolExpand1 then adProtocolHeadExpandLen else 1

/-- A returned length past the last `int` is negative and promises nothing. -/
def ReturnFits (n iLen : Int) : Prop := n ≤ iLen ∨ 2 ^ 31 ≤ n

/-- The lengths `compress` may report for a body: its packed length when that fits, and any
length up to the limit when it does not. -/
def Reports (z : Zlib) (body : Bytes) (n : Nat) : Prop :=
  n ≤ adKbytes4 ∧ ((z.deflate body).length ≤ adKbytes4 → n = (z.deflate body).length)

theorem compress_reports (fault : ZlibFault) (body : Bytes) :
    Reports z body (z.compress fault adKbytes4 body).length :=
  ⟨compress_length, fun packs => by rw [compress_ok packs]⟩

theorem reports_compress {body : Bytes} {n : Nat} (reports : Reports z body n) :
    ∃ fault : ZlibFault, (z.compress fault adKbytes4 body).length = n := by
  refine ⟨⟨List.replicate n 0, [], 0, fun _ => 0⟩, ?_⟩
  by_cases packs : (z.deflate body).length ≤ adKbytes4
  · rw [compress_ok packs, reports.2 packs]
  · rw [compress_failed (by omega), List.length_take, List.length_replicate]
    exact min_eq_right reports.1

/-- A packed body fits when every length `compress` may report for it leaves room for what
comes behind. With `guarded`, a length that does not fit at all is refused instead. -/
def PackedFits (z : Zlib) (guarded : Prop) (body : Bytes) (iLen size tail : Int) : Prop :=
  if (z.deflate body).length ≤ adKbytes4 then
    (guarded ∧ iLen < (z.deflate body).length + size) ∨
      (z.deflate body).length + size + tail ≤ iLen
  else adKbytes4 + size + tail ≤ iLen

instance (guarded : Prop) [Decidable guarded] (body : Bytes) (iLen size tail : Int) :
    Decidable (PackedFits z guarded body iLen size tail) :=
  inferInstanceAs (Decidable (if (z.deflate body).length ≤ adKbytes4 then
    (guarded ∧ iLen < (z.deflate body).length + size) ∨
      (z.deflate body).length + size + tail ≤ iLen
  else adKbytes4 + size + tail ≤ iLen))

instance (n iLen : Int) : Decidable (ReturnFits n iLen) := inferInstanceAs (Decidable (_ ∨ _))

theorem packedFits_iff {guarded : Prop} {body : Bytes} {iLen size tail : Int}
    (room : size ≤ iLen) (positive : 1 ≤ tail) :
    (∀ fault : ZlibFault,
      (guarded ∧ iLen < (z.compress fault adKbytes4 body).length + size) ∨
        (z.compress fault adKbytes4 body).length + size + tail ≤ iLen) ↔
      PackedFits z guarded body iLen size tail := by
  rw [PackedFits]
  by_cases packs : (z.deflate body).length ≤ adKbytes4
  · simp only [if_pos packs, compress_ok packs]
    exact ⟨fun fits => fits ⟨[], [], 0, fun _ => 0⟩, fun fits _ => fits⟩
  · rw [if_neg packs]
    constructor
    · intro fits
      -- the largest length that is not refused already needs its tail
      have reports : Reports z body (min adKbytes4 (iLen - size).toNat) :=
        ⟨min_le_left _ _, fun packs' => absurd packs' packs⟩
      obtain ⟨fault, length⟩ := reports_compress reports
      have fit := fits fault
      rw [length] at fit
      omega
    · intro fits fault
      have length : (z.compress fault adKbytes4 body).length ≤ adKbytes4 := compress_length
      exact .inr (by omega)

theorem writeHead_stays {p : AdRtbProtocol} (held : ExpandHeld p) {size dataLen iLen : Int}
    {writes : List Write} (long : 16 ≤ iLen) (lower : 0 ≤ dataLen + size)
    (upper : dataLen + size < 2 ^ 31) :
    Stays iLen (writeHead p size dataLen writes) ↔
      (∀ w ∈ writes, w.Inside iLen) ∧ ReturnFits (dataLen + size + expandTail p.head) iLen := by
  have head : (⟨0, headBytes p.head⟩ : Write).Inside iLen := by
    simp only [Write.Inside, headBytes_length]
    omega
  rw [writeHead, expandTail]
  by_cases expand : p.head.expand = adProtocolExpand1
  · have exHead : (⟨12, p.exHead⟩ : Write).Inside iLen := by
      simp only [Write.Inside, held expand]
      omega
    have ret : dataLen + size + p.exHead.length = dataLen + size + 4 := by rw [held expand]; rfl
    simp only [if_pos expand, Stays, List.forall_mem_append, List.forall_mem_singleton, head,
      exHead, and_true, ret, ReturnFits, adProtocolHeadExpandLen]
    have range := toInt32_range (dataLen + size + 4)
    obtain ⟨k, hk⟩ := toInt32_sub_dvd (dataLen + size + 4)
    refine and_congr Iff.rfl ⟨fun fits => ?_, fun fits => ?_⟩ <;> omega
  · simp only [if_neg expand, Stays, List.forall_mem_append, List.forall_mem_singleton, head,
      and_true, ReturnFits, add_zero]
    rw [toInt32_of_range (by omega) upper]
    refine and_congr Iff.rfl ⟨fun fits => ?_, fun fits => ?_⟩ <;> omega

theorem copyBack_inside {size iLen : Int} {packed : Bytes} (lower : 0 ≤ size) :
    (∀ w ∈ copyBack size packed, w.Inside iLen) ↔ packed.length + size + 1 ≤ iLen := by
  rw [copyBack, List.forall_mem_cons, List.forall_mem_singleton, Write.Inside, Write.Inside]
  simp only [List.length_singleton]
  omega

/-- The end of a compressed packet stays inside when the packed body and its tail do. -/
theorem packed_stays {p : AdRtbProtocol} (held : ExpandHeld p) {size iLen : Int} {packed : Bytes}
    {writes : List Write} (long : 16 ≤ iLen) (lower : 0 ≤ size) (upper : size ≤ 16)
    (short : packed.length ≤ adKbytes4) :
    Stays iLen (writeHead p size packed.length (writes ++ copyBack size packed)) ↔
      (∀ w ∈ writes, w.Inside iLen) ∧
        packed.length + size + packedTail p.head ≤ iLen := by
  rw [adKbytes4] at short
  rw [writeHead_stays held long (by omega) (by omega), List.forall_mem_append,
    copyBack_inside lower, expandTail, packedTail, ReturnFits, and_assoc]
  refine and_congr_right fun _ => ?_
  by_cases expand : p.head.expand = adProtocolExpand1
  · rw [if_pos expand, if_pos expand, adProtocolHeadExpandLen]
    omega
  · rw [if_neg expand, if_neg expand]
    omega

/-- A request the encoder is safe on: the flow record and what the checks accept fit, and
so does the packet when they accept everything. -/
def RequestFits (z : Zlib) (p : AdRtbProtocol) (r : AdRtbRequest) (iLen : Int) : Prop :=
  12 + (stream (flowRecord r ++ accepted (iLen - 12) (present (requestPairs r)))).length ≤ iLen ∧
    (Accepts (iLen - 12) (requestPairs r) →
      if p.head.attr = adProtocolBodyComp then
        PackedFits z False (stream (requestRecords r)) iLen 12 (packedTail p.head)
      else ReturnFits ((stream (requestRecords r)).length + 12 + expandTail p.head) iLen)

/-- A response the encoder is safe on: no accepted value has two gigabytes, and the packet
fits when everything is accepted. -/
def ResponseFits (z : Zlib) (p : AdRtbProtocol) (r : AdRtbResponse) (iLen : Int) : Prop :=
  if r.adx = 0 then headSize p.head + expandTail p.head ≤ iLen
  else
    (∀ kv ∈ accepted (iLen - headSize p.head) (responseRecords r),
      (5 + kv.2.length : Int) < 2 ^ 31) ∧
    (Accepts (iLen - headSize p.head) (responsePairs r) →
      if p.head.attr = adProtocolBodyComp then
        PackedFits z True (stream (responseRecords r)) iLen (headSize p.head)
          (packedTail p.head)
      else ReturnFits ((stream (responseRecords r)).length + headSize p.head +
        expandTail p.head) iLen)

theorem headSize_cases (h : AdProtocolHead) : headSize h = 12 ∨ headSize h = 16 := by
  rw [headSize]
  split
  · exact .inr rfl
  · exact .inl rfl

theorem stays_failure {iLen : Int} {writes : List Write} {p : AdRtbProtocol} :
    Stays iLen ⟨adFailure, writes, p⟩ ↔ ∀ w ∈ writes, w.Inside iLen :=
  ⟨And.left, fun inside => ⟨inside, fun positive =>
    absurd (show 0 < adFailure from positive) (by decide)⟩⟩

theorem writeHead_writes (p : AdRtbProtocol) (size dataLen : Int) {writes : List Write}
    {w : Write} (h : w ∈ writes) : w ∈ (writeHead p size dataLen writes).writes := by
  rw [writeHead]
  split <;> simp [h]

/-- The end of an encoder, over the records of a completed pass. The object that is left,
`q`, depends on the length it puts in its head. -/
def finish (z : Zlib) (q : Int → AdRtbProtocol) (attr : UInt8) (guarded : Prop)
    [Decidable guarded] (kvs : List (UInt8 × Bytes)) (size iLen : Int) (fault : ZlibFault)
    (buffer : Memory) : Encoded :=
  let dataLen := toInt32 (stream kvs).length
  if attr = adProtocolBodyComp then
    let packed := z.compress fault adKbytes4 (compressSource buffer size dataLen (placed size kvs))
    if guarded ∧ iLen < packed.length + size then ⟨adFailure, placed size kvs, q 0⟩
    else writeHead (q packed.length) size packed.length (placed size kvs ++ copyBack size packed)
  else writeHead (q dataLen) size dataLen (placed size kvs)

theorem finish_stays_iff {q : Int → AdRtbProtocol} (h : AdProtocolHead)
    (held : ∀ n, ExpandHeld (q n)) (expand : ∀ n, (q n).head.expand = h.expand) (attr : UInt8)
    (guarded : Prop) [Decidable guarded] (kvs : List (UInt8 × Bytes)) {size iLen : Int}
    (long : 16 ≤ iLen) (upper : iLen < 2 ^ 31) (small : 0 ≤ size ∧ size ≤ 16) :
    (∀ fault buffer, Stays iLen (finish z q attr guarded kvs size iLen fault buffer)) ↔
      size + (stream kvs).length ≤ iLen ∧
        if attr = adProtocolBodyComp then
          PackedFits z guarded (stream kvs) iLen size (packedTail h)
        else ReturnFits ((stream kvs).length + size + expandTail h) iLen := by
  obtain ⟨lower, small⟩ := small
  have fits : (∀ w ∈ placed size kvs, w.Inside iLen) ↔ size + (stream kvs).length ≤ iLen :=
    placed_inside_iff lower (by omega)
  have tails : ∀ n, packedTail (q n).head = packedTail h ∧ expandTail (q n).head = expandTail h :=
    fun n => by simp only [packedTail, expandTail, expand n, and_self]
  by_cases inside : size + (stream kvs).length ≤ iLen
  swap
  · -- what was accepted does not fit: no end of the run makes up for it
    refine iff_of_false (fun stays => inside (fits.mp fun w hw => ?_)) fun both => inside both.1
    have written := (stays ⟨[], [], 0, fun _ => 0⟩ fun _ => 0).1
    rw [finish] at written
    dsimp only at written
    split at written
    · split at written
      · exact written w hw
      · exact written w (writeHead_writes _ _ _ (List.mem_append_left _ hw))
    · exact written w (writeHead_writes _ _ _ hw)
  have records := fits.mpr inside
  have short : (stream kvs).length < 2 ^ 31 := by omega
  have length : toInt32 (stream kvs).length = (stream kvs).length :=
    toInt32_of_range (by omega) (by omega)
  rw [and_iff_right inside]
  by_cases compressed : attr = adProtocolBodyComp
  · have positive : 1 ≤ packedTail h := by
      rw [packedTail]
      split <;> decide
    rw [if_pos compressed, ← packedFits_iff (by omega) positive]
    have stays : ∀ fault buffer,
        Stays iLen (finish z q attr guarded kvs size iLen fault buffer) ↔
          (guarded ∧ iLen < (z.compress fault adKbytes4 (stream kvs)).length + size) ∨
            (z.compress fault adKbytes4 (stream kvs)).length + size + packedTail h ≤ iLen := by
      intro fault buffer
      simp only [finish, if_pos compressed, compressSource_placed buffer size short]
      by_cases refused :
          guarded ∧ iLen < (z.compress fault adKbytes4 (stream kvs)).length + size
      · rw [if_pos refused, stays_failure]
        exact iff_of_true records (.inl refused)
      · rw [if_neg refused, packed_stays (held _) long lower small compress_length, (tails _).1,
          or_iff_right refused, and_iff_right records]
    simp only [stays]
    exact ⟨fun all fault => all fault fun _ => 0, fun all fault _ => all fault⟩
  · have stays : ∀ fault buffer,
        Stays iLen (finish z q attr guarded kvs size iLen fault buffer) ↔
          ReturnFits ((stream kvs).length + size + expandTail h) iLen := by
      intro fault buffer
      simp only [finish, if_neg compressed, length]
      rw [writeHead_stays (held _) long (by omega) (by omega), (tails _).2,
        and_iff_right records]
    rw [if_neg compressed]
    simp only [stays]
    exact ⟨fun all => all ⟨[], [], 0, fun _ => 0⟩ fun _ => 0, fun all _ _ => all⟩

theorem request_stays_iff {p : AdRtbProtocol} (held : ExpandHeld p) (r : AdRtbRequest)
    {iLen : Int} (long : 16 ≤ iLen) (upper : iLen < 2 ^ 31) :
    RequestStays z p r iLen ↔ RequestFits z p r iLen := by
  rcases request_pass r iLen with ⟨accepts, c, pass, pos, writes, _⟩ | ⟨refused, pass⟩
  · have all : flowRecord r ++ accepted (iLen - 12) (present (requestPairs r)) =
        requestRecords r := by
      rw [requestRecords, show accepted _ _ = _ from accepts]
    have length : c.pos - adProtocolHeadLen = (stream (requestRecords r)).length := by
      rw [pos, adProtocolHeadLen]
      omega
    have run : ∀ fault buffer, p.requestToTlv z fault r buffer iLen =
        finish z (fun n => ⟨{ p.head with
          type := r.adx.toUInt8, length := n, total := c.count }, p.exHead⟩) p.head.attr False
          (requestRecords r) 12 iLen fault buffer := by
      intro fault buffer
      rw [AdRtbProtocol.requestToTlv, finish]
      simp only [pass, writes, length, false_and, if_false]
      rfl
    rw [RequestStays, RequestFits, all]
    simp only [run, accepts, true_implies]
    have small : (0 : Int) ≤ 12 ∧ (12 : Int) ≤ 16 := by decide
    have both := finish_stays_iff (z := z) p.head (fun n => show ExpandHeld
      ⟨{ p.head with type := r.adx.toUInt8, length := n, total := c.count }, p.exHead⟩ from held)
      (fun _ => rfl) p.head.attr False (requestRecords r) long upper small
    exact both
  · have run : ∀ fault buffer, Stays iLen (p.requestToTlv z fault r buffer iLen) ↔
        12 + (stream (flowRecord r ++
          accepted (iLen - 12) (present (requestPairs r)))).length ≤ iLen := by
      intro fault buffer
      rw [AdRtbProtocol.requestToTlv]
      simp only [pass]
      rw [stays_failure, placed_inside_iff (by decide) (by omega)]
    rw [RequestStays, RequestFits]
    simp only [run, refused, false_implies, and_true]
    exact ⟨fun all => all ⟨[], [], 0, fun _ => 0⟩ fun _ => 0, fun all _ _ => all⟩

theorem response_stays_iff {p : AdRtbProtocol} (held : ExpandHeld p) (r : AdRtbResponse)
    {iLen : Int} (long : 16 ≤ iLen) (upper : iLen < 2 ^ 31) :
    ResponseStays z p r iLen ↔ ResponseFits z p r iLen := by
  have size : 0 ≤ headSize p.head ∧ headSize p.head ≤ 16 := by
    rcases headSize_cases p.head with size | size <;> rw [size] <;> decide
  rw [ResponseFits]
  by_cases adx : r.adx = 0
  · rw [if_pos adx]
    have run : ∀ fault buffer, Stays iLen (p.responseToTlv z fault r buffer iLen) ↔
        headSize p.head + expandTail p.head ≤ iLen := by
      intro fault buffer
      rw [AdRtbProtocol.responseToTlv]
      simp only [if_pos adx]
      have tail : expandTail p.head ≤ 4 := by
        rw [expandTail]
        split <;> decide
      rw [writeHead_stays (by exact held) long (by omega) (by omega), ReturnFits, zero_add]
      change _ ∧ (headSize p.head + expandTail p.head ≤ iLen ∨
        2 ^ 31 ≤ headSize p.head + expandTail p.head) ↔ _
      rw [and_iff_right (by simp)]
      omega
    simp only [ResponseStays, run]
    exact ⟨fun all => all ⟨[], [], 0, fun _ => 0⟩ fun _ => 0, fun all _ _ => all⟩
  rw [if_neg adx]
  rcases pass_cases ⟨headSize p.head, iLen - headSize p.head, 0, []⟩ (responsePairs r) with
    ⟨accepts, c, pass, pos, writes, _⟩ | ⟨refused, pass⟩
  · have all : accepted (iLen - headSize p.head) (responseRecords r) = responseRecords r := accepts
    have length : c.pos - headSize p.head = (stream (responseRecords r)).length := by
      rw [pos, responseRecords]
      exact add_sub_cancel_left _ _
    have records : c.writes = placed (headSize p.head) (responseRecords r) := by
      rw [writes, responseRecords, List.nil_append]
    have run : ∀ fault buffer, Stays iLen (p.responseToTlv z fault r buffer iLen) ↔
        Stays iLen (finish z (fun n => ⟨{ p.head with
          type := r.adx.toUInt8, length := n, total := c.count, verb := adProtocolVerbResponse },
          p.exHead⟩) p.head.attr True (responseRecords r) (headSize p.head) iLen fault buffer) := by
      intro fault buffer
      rw [AdRtbProtocol.responseToTlv, finish]
      simp only [if_neg adx, pass, records, length, true_and]
      split
      · split
        · rw [stays_failure, stays_failure]
        · rfl
      · rfl
    rw [← accepted_fits_iff size.1 (by omega) upper, all, ResponseStays]
    simp only [run]
    have accepts' : Accepts (iLen - headSize p.head) (responsePairs r) := accepts
    simp only [accepts', true_implies]
    have both := finish_stays_iff (z := z) p.head (fun n => show ExpandHeld
      ⟨{ p.head with
          type := r.adx.toUInt8, length := n, total := c.count, verb := adProtocolVerbResponse },
        p.exHead⟩ from held)
      (fun _ => rfl) p.head.attr True (responseRecords r) long upper size
    exact both
  · have run : ∀ fault buffer, Stays iLen (p.responseToTlv z fault r buffer iLen) ↔
        headSize p.head + (stream (accepted (iLen - headSize p.head)
          (responseRecords r))).length ≤ iLen := by
      intro fault buffer
      rw [AdRtbProtocol.responseToTlv]
      simp only [if_neg adx, pass]
      rw [stays_failure, List.nil_append, placed_inside_iff size.1 (by omega)]
      rfl
    have refused' : ¬ Accepts (iLen - headSize p.head) (responsePairs r) := refused
    rw [← accepted_fits_iff size.1 (by omega) upper, ResponseStays]
    simp only [run, refused', false_implies, and_true]
    exact ⟨fun all => all ⟨[], [], 0, fun _ => 0⟩ fun _ => 0, fun all _ _ => all⟩

/-- From every state an object can be in, each encoder stays inside its buffer exactly for
the messages that fit. -/
theorem encoder_bounds_iff (z : Zlib) (p : AdRtbProtocol) (reachable : Reachable z p) (iLen : Int)
    (long : 16 ≤ iLen) (upper : iLen < 2 ^ 31) :
    (∀ r, RequestStays z p r iLen ↔ RequestFits z p r iLen) ∧
      (∀ r, ResponseStays z p r iLen ↔ ResponseFits z p r iLen) :=
  ⟨fun r => request_stays_iff (reachable_held reachable) r long upper,
    fun r => response_stays_iff (reachable_held reachable) r long upper⟩

/-- A request of flow 1 for a page. -/
def urlRequest (url : Bytes) : AdRtbRequest where
  text
    | .flow => ascii "1"
    | .userUrl => url
    | _ => []
  list _ := []
  adx := 1
  time := ⟨0, 0⟩

theorem short_url_stays :
    RequestStays storedZlib AdRtbProtocol.fresh (urlRequest (ascii "u")) 8192 :=
  ((encoder_bounds_iff storedZlib AdRtbProtocol.fresh .fresh 8192 (by decide) (by decide)).1
    (urlRequest (ascii "u"))).mpr ⟨by decide, fun _ => show PackedFits storedZlib False
      (stream (requestRecords (urlRequest (ascii "u")))) 8192 12 1 by decide⟩

theorem urlRequest_records {url : Bytes} (value : url ≠ []) :
    flowRecord (urlRequest url) = [(136, ascii "1")] ∧
      present (requestPairs (urlRequest url)) = [(136, ascii "1"), (106, url)] := by
  have flow : ascii "1" ≠ [] := by decide
  constructor
  · simp [flowRecord, present, urlRequest, flow]
  · simp [requestPairs, requestLayout, pairs, present, Message.values, urlRequest, value, flow]

theorem url_overrun {url : Bytes} (size : url.length = 8169) (z : Zlib) :
    ¬ RequestStays z AdRtbProtocol.fresh (urlRequest url) 8192 := by
  intro stays
  have held : ExpandHeld AdRtbProtocol.fresh := reachable_held (z := z) .fresh
  have fits := ((request_stays_iff held (urlRequest url) (by decide) (by decide)).mp stays).1
  have value : url ≠ [] := by rintro rfl; cases size
  obtain ⟨flow, rest⟩ := urlRequest_records value
  have first : toInt32 (5 + ((ascii "1").length : Int)) = 6 := by decide
  have left : toInt32 (8192 - 12 - (5 + ((ascii "1").length : Int))) = 8174 := by decide
  have second : toInt32 (5 + (8169 : Int)) = 8174 := by decide
  have all : accepted (8192 - 12) [(136, ascii "1"), (106, url)] =
      [(136, ascii "1"), (106, url)] := by
    rw [accepted, first, if_neg (by decide), left, accepted, size]
    simp only [Nat.cast_ofNat, second, lt_irrefl, if_false, accepted]
  rw [flow, rest, all] at fits
  simp only [List.cons_append, List.nil_append, stream_cons, stream_nil, List.length_append,
    record_length, size, List.length_nil] at fits
  exact absurd fits (by decide)

/-- A page address of 8169 bytes passes the space checks of the 8192 byte buffer and is
written past its end, since the first flow record was not charged. -/
theorem long_url_overrun :
    ¬ ∃ z : Zlib,
      RequestStays z AdRtbProtocol.fresh (urlRequest (List.replicate 8169 0x61)) 8192 :=
  fun ⟨z, stays⟩ => url_overrun List.length_replicate z stays

end EncoderBounds
