import RtbAdapter.EncoderBounds

/-!
# The length of a packet, told three times

The response encoder returns a length, its head stores one, and the reply loop
of the adapter takes one from the bytes to cut a read into packets. The last
is taken one byte too far and leaves out the head, so the three agree only on
an uncompressed body of one particular length for each first key.
-/

namespace PacketFraming

open ByteWords ByteMemory KeyValueStream RtbBase ZlibCalls NetProtocol RecordWriter Packets
open EncoderBounds

/-- A call of the response encoder that returned a packet. -/
structure Run (z : Zlib) where
  object : AdRtbProtocol
  response : AdRtbResponse
  iLen : Int
  fault : ZlibFault
  buffer : Memory
  reachable : Reachable z object
  positive : 0 < (object.responseToTlv z fault response buffer iLen).ret

variable {z : Zlib}

def Run.encoded (run : Run z) : Encoded :=
  run.object.responseToTlv z run.fault run.response run.buffer run.iLen

def Run.memory (run : Run z) : Memory := replay run.buffer run.encoded.writes

/-- The body length stored in the head of the packet. -/
def Run.stored (run : Run z) : Int := toInt32 (beNat (readBytes run.memory 8 4))

/-- The three lengths of a packet agree, whatever follows the packet in memory. -/
def Run.Framed (run : Run z) : Prop :=
  run.encoded.ret = headSize run.object.head + run.stored ∧
    ∀ m, AgreeBelow run.encoded.ret run.memory m → ∀ iLen, run.encoded.ret ≤ iLen →
      tlvPacketLen m iLen = run.encoded.ret

/-- No expand head, no compression, and a body whose length answers its first key. -/
def Run.Answers (run : Run z) : Prop :=
  run.object.head.expand ≠ adProtocolExpand1 ∧ run.object.head.attr ≠ adProtocolBodyComp ∧
    run.response.adx ≠ 0 ∧ ∃ first ∈ (responseRecords run.response).head?,
      toInt32 (stream (responseRecords run.response)).length =
        ((first.1.toNat : Int) - 12) * 16843009

/-- The reply loop of `AdAdapterIBiddingResponse`: the offsets at which it takes a packet
for a pending request, until none is pending, a length is not positive or the read ends. -/
def replyLoop (m : Memory) (size : Int) : Nat → Int → List Int
  | 0, _ => []
  | pending + 1, iOffset =>
    let iLen := tlvPacketLen (fun a => m (iOffset + a)) (size - iOffset)
    if 0 < iLen then
      iOffset ::
        if toInt32 (iOffset + iLen) < size then
          replyLoop m size pending (toInt32 (iOffset + iLen))
        else []
    else []

/-- The packets stand one behind the other in memory, from an offset on. -/
def Concatenated (m : Memory) : Int → List (Run z) → Prop
  | _, [] => True
  | offset, run :: runs =>
    AgreeBelow run.encoded.ret run.memory (fun a => m (offset + a)) ∧
      Concatenated m (offset + run.encoded.ret) runs

def boundaries : Int → List (Run z) → List Int
  | _, [] => []
  | offset, run :: runs => offset :: boundaries (offset + run.encoded.ret) runs

def total (runs : List (Run z)) : Int := (runs.map fun run => run.encoded.ret).sum

/-- The reply loop cuts a read of these packets at their boundaries. -/
def CutAtBoundaries (runs : List (Run z)) : Prop :=
  ∀ m, Concatenated m 0 runs → total runs < 2 ^ 31 → ∀ pending, runs.length ≤ pending →
    replyLoop m (total runs) pending 0 = boundaries 0 runs

theorem writeHead_memory {p : AdRtbProtocol} (buffer : Memory) (size dataLen : Int)
    (writes : List Write) (plain : p.head.expand ≠ adProtocolExpand1) :
    let m := replay buffer (writeHead p size dataLen writes).writes
    readBytes m 0 12 = headBytes p.head ∧ m 12 = replay buffer writes 12 := by
  dsimp only
  rw [writeHead, if_neg plain, replay_append, replay_cons, replay_nil]
  constructor
  · have own := readBytes_put_self (replay buffer writes) ⟨0, headBytes p.head⟩
    rwa [headBytes_length] at own
  · rw [put, if_neg]
    simp

theorem head_fields {m : Memory} {h : AdProtocolHead} (holds : readBytes m 0 12 = headBytes h) :
    m 0 = adProtocolFlag ∧ readBytes m 8 4 = beBytes 4 (toUInt32 h.length) := by
  rw [← headBytes_length h, headBytes, List.append_assoc] at holds
  obtain ⟨front, back⟩ := readBytes_append_iff.mp holds
  obtain ⟨_, length⟩ := readBytes_append_iff.mp back
  rw [beBytes_length] at length
  exact ⟨(readBytes_cons_iff.mp front).1, length⟩

theorem int32_word {n : Int} (lower : -2 ^ 31 ≤ n) (upper : n < 2 ^ 31) :
    toInt32 (beNat (beBytes 4 (toUInt32 n))) = n := by
  have small : toUInt32 n < 256 ^ 4 := by
    simp only [toUInt32]
    omega
  rw [beNat_beBytes_of_lt small, toInt32_eq_iff lower upper]
  simp only [toUInt32]
  exact ⟨-(n / 2 ^ 32), by omega⟩

/-- The length the adapter takes, from the stored length and the byte behind the head. -/
theorem tlvPacketLen_eq {m : Memory} {n : Int} (flag : m 0 = adProtocolFlag)
    (length : readBytes m 8 4 = beBytes 4 (toUInt32 n)) {iLen : Int} (long : 12 ≤ iLen) :
    tlvPacketLen m iLen = toInt32 (256 * (toUInt32 n % 2 ^ 24) + (m 12).toNat) := by
  have tail : readBytes m 9 3 = beBytes 3 (toUInt32 n) := by
    have split : readBytes m 8 (1 + 3) = readBytes m 8 1 ++ readBytes m (8 + 1) 3 :=
      readBytes_add m 8 1 3
    rw [show (1 + 3 : Nat) = 4 from rfl, length] at split
    have parts : beBytes 4 (toUInt32 n) =
        [UInt8.ofNat (toUInt32 n / 256 / 256 / 256)] ++ beBytes 3 (toUInt32 n) := by
      simp [beBytes]
    rw [parts] at split
    exact (List.append_inj_right split (by simp)).symm
  have word : readBytes m 9 4 = beBytes 3 (toUInt32 n) ++ [m 12] := by
    rw [show (4 : Nat) = 3 + 1 from rfl, readBytes_add, tail, readBytes_one]
    rfl
  rw [tlvPacketLen, if_neg (by rw [adProtocolHeadLen]; omega), if_pos flag, word, beNat_concat,
    beNat_beBytes]
  norm_num

/-- How the encoder comes to a packet: without a body, with a compressed one or with its
records as they are. -/
inductive Body (run : Run z) (n : Int) (writes : List Write) : Prop where
  | none (adx : run.response.adx = 0) (length : n = 0)
  | packed (attr : run.object.head.attr = adProtocolBodyComp) (lower : 0 ≤ n) (upper : n ≤ 4096)
  | plain (adx : run.response.adx ≠ 0) (attr : run.object.head.attr ≠ adProtocolBodyComp)
      (length : n = toInt32 (stream (responseRecords run.response)).length)
      (records : writes = placed (headSize run.object.head) (responseRecords run.response))

theorem run_body (run : Run z) : ∃ p n writes,
    run.encoded = writeHead p (headSize run.object.head) n writes ∧
      p.head.expand = run.object.head.expand ∧ p.exHead = run.object.exHead ∧
      p.head.length = n ∧ Body run n writes := by
  have positive := run.positive
  rw [Run.encoded]
  rw [AdRtbProtocol.responseToTlv] at positive ⊢
  by_cases adx : run.response.adx = 0
  · simp only [if_pos adx]
    exact ⟨_, _, _, rfl, rfl, rfl, rfl, .none adx rfl⟩
  simp only [if_neg adx] at positive ⊢
  rcases pass_cases ⟨headSize run.object.head, run.iLen - headSize run.object.head, 0, []⟩
    (responsePairs run.response) with ⟨_, c, pass, pos, writes, _⟩ | ⟨_, pass⟩
  swap
  · rw [pass] at positive
    exact absurd (show 0 < adFailure from positive) (by decide)
  have length : c.pos - headSize run.object.head =
      (stream (responseRecords run.response)).length := by
    rw [pos, responseRecords]
    exact add_sub_cancel_left _ _
  have records : c.writes =
      placed (headSize run.object.head) (responseRecords run.response) := by
    rw [writes, responseRecords, List.nil_append]
  simp only [pass, records, length] at positive ⊢
  by_cases attr : run.object.head.attr = adProtocolBodyComp
  · simp only [if_pos attr] at positive ⊢
    split at positive
    · exact absurd (show 0 < adFailure from positive) (by decide)
    case isFalse room =>
      rw [if_neg room]
      have short : (z.compress run.fault adKbytes4 (compressSource run.buffer
        (headSize run.object.head) (toInt32 (stream (responseRecords run.response)).length)
        (placed (headSize run.object.head) (responseRecords run.response)))).length ≤ 4096 :=
        compress_length
      generalize z.compress run.fault adKbytes4 (compressSource run.buffer
        (headSize run.object.head) (toInt32 (stream (responseRecords run.response)).length)
        (placed (headSize run.object.head) (responseRecords run.response))) = packed at short ⊢
      have bounded : (packed.length : Int) ≤ 4096 := by exact_mod_cast short
      exact ⟨_, _, _, rfl, rfl, rfl, rfl, .packed attr (Int.natCast_nonneg _) bounded⟩
  · simp only [if_neg attr] at positive ⊢
    generalize hbody : toInt32 (stream (responseRecords run.response)).length = n
    exact ⟨_, n, _, rfl, rfl, rfl, rfl, .plain adx attr hbody.symm rfl⟩

theorem body_range {run : Run z} {n : Int} {writes : List Write} (body : Body run n writes) :
    -2 ^ 31 ≤ n ∧ n < 2 ^ 31 := by
  cases body with
  | none _ length => omega
  | packed _ lower upper => omega
  | plain _ _ length _ => exact length ▸ toInt32_range _

/-- With an expand head, the returned length is four more than head and body. -/
theorem expand_not_framed {run : Run z} (expand : run.object.head.expand = adProtocolExpand1) :
    ¬ run.Framed := by
  rintro ⟨same, _⟩
  obtain ⟨p, n, writes, encoded, expand', exHead, length, body⟩ := run_body run
  have range := body_range body
  have size : headSize run.object.head = 16 := by rw [headSize, if_pos expand]; rfl
  have four : p.exHead.length = 4 := exHead ▸ reachable_held run.reachable expand
  have stored : run.stored = n := by
    have words : readBytes run.memory 8 4 = beBytes 4 (toUInt32 n) := by
      rw [Run.memory, encoded, writeHead, if_pos (expand'.trans expand), replay_append,
        replay_cons, replay_nil, readBytes_put_disjoint _ _ _ _ (.inl (by norm_num)),
        replay_append, replay_cons, replay_nil, ← length]
      have own := readBytes_put_self (replay run.buffer writes) ⟨0, headBytes p.head⟩
      rw [headBytes_length] at own
      exact (head_fields own).2
    rw [Run.stored, words, int32_word range.1 range.2]
  have ret : run.encoded.ret = toInt32 (n + 16 + 4) := by
    rw [encoded, writeHead, if_pos (expand'.trans expand), size, four]
    rfl
  rw [ret, size, stored] at same
  obtain ⟨k, hk⟩ := toInt32_sub_dvd (n + 16 + 4)
  omega

theorem responseLayout_key (hotKey : Bytes) : ∀ e ∈ responseLayout hotKey, 12 < e.1.toNat := by
  by_cases keyword : hotKey.take 3 = ascii "KW_"
  · simp only [responseLayout, hotKeyKey, if_pos keyword]
    decide
  · simp only [responseLayout, hotKeyKey, if_neg keyword]
    decide

theorem responseRecords_key {r : AdRtbResponse} {kv : UInt8 × Bytes}
    (h : kv ∈ responseRecords r) : 12 < kv.1.toNat := by
  obtain ⟨e, he, hv⟩ := List.mem_flatMap.mp (List.mem_filter.mp h).1
  obtain ⟨v, _, rfl⟩ := List.mem_map.mp hv
  exact responseLayout_key _ e he

/-- The one length that answers a first byte: both lengths are the same word. -/
theorem answer_iff {n b : Nat} (positive : 0 < n) (upper : n + 12 < 2 ^ 31) (byte : b < 256) :
    toInt32 (256 * ((n : Int) % 2 ^ 24) + b) = n + 12 ↔
      (n : Int) = ((b : Int) - 12) * 16843009 := by
  rw [toInt32_eq_iff (by omega) (by omega)]
  constructor
  · rintro ⟨k, hk⟩
    have : k = 0 := by omega
    subst this
    omega
  · intro same
    exact ⟨0, by omega⟩

/-- A packet without an expand head, and its body of `n` bytes. -/
structure Bare (run : Run z) (n : Int) (writes : List Write) : Prop where
  noExpand : run.object.head.expand ≠ adProtocolExpand1
  body : Body run n writes
  ret : run.encoded.ret = n + 12
  upper : n + 12 < 2 ^ 31
  stored : run.stored = n
  flag : run.memory 0 = adProtocolFlag
  words : readBytes run.memory 8 4 = beBytes 4 (toUInt32 n)
  behind : run.memory 12 = replay run.buffer writes 12

variable {run : Run z} {n : Int} {writes : List Write}

theorem run_bare (run : Run z) (noExpand : run.object.head.expand ≠ adProtocolExpand1) :
    ∃ n writes, Bare run n writes := by
  obtain ⟨p, n, writes, encoded, expand, _, length, body⟩ := run_body run
  have range := body_range body
  have size : headSize run.object.head = 12 := by rw [headSize, if_neg noExpand]; rfl
  have plain : p.head.expand ≠ adProtocolExpand1 := fun same => noExpand (expand ▸ same)
  obtain ⟨holds, behind⟩ := writeHead_memory run.buffer (headSize run.object.head) n writes plain
  rw [← encoded] at holds behind
  obtain ⟨flag, words⟩ := head_fields holds
  rw [length] at words
  have stored : run.stored = n := by
    rw [Run.stored, Run.memory, words, int32_word range.1 range.2]
  obtain ⟨ret, upper⟩ : run.encoded.ret = n + 12 ∧ n + 12 < 2 ^ 31 := by
    have positive : 0 < run.encoded.ret := run.positive
    have word : run.encoded.ret = toInt32 (n + 12) := by
      rw [encoded, writeHead, if_neg plain, size]
    rw [word] at positive ⊢
    have words := toInt32_range (n + 12)
    obtain ⟨k, hk⟩ := toInt32_sub_dvd (n + 12)
    omega
  exact ⟨n, writes, noExpand, body, ret, upper, stored, flag, words, behind⟩

theorem Bare.positive (bare : Bare run n writes) : 0 < n + 12 := by
  have positive : 0 < run.encoded.ret := run.positive
  rwa [bare.ret] at positive

/-- The byte behind the head is not part of an empty packet: let it be zero. -/
theorem Bare.not_framed (bare : Bare run n writes) (empty : n ≤ 0) : ¬ run.Framed := by
  intro framed
  have positive := bare.positive
  have ret := bare.ret
  let blank : Memory := fun a => if a = 12 then 0 else run.memory a
  have same : ∀ a, a ≠ 12 → run.memory a = blank a := fun a apart => (if_neg apart).symm
  have other := framed.2 blank (fun a _ upper => same a (by omega)) run.encoded.ret le_rfl
  rw [ret] at other
  by_cases short : n + 12 < adProtocolHeadLen
  · rw [tlvPacketLen, if_pos short, adFailure] at other
    omega
  · rw [adProtocolHeadLen] at short
    have zero : n = 0 := by omega
    have words : readBytes blank 8 4 = beBytes 4 (toUInt32 n) := by
      rw [← bare.words]
      exact readBytes_congr fun i hi => (same _ (by omega)).symm
    have flag : blank 0 = adProtocolFlag := (same 0 (by decide)).symm.trans bare.flag
    rw [tlvPacketLen_eq flag words (by omega), zero, show blank 12 = 0 from if_pos rfl] at other
    exact absurd other (by decide)

theorem Bare.not_answers (bare : Bare run n writes) (empty : n ≤ 0) : ¬ run.Answers := by
  rintro ⟨_, attr, adx, first, head, same⟩
  have key := responseRecords_key (List.mem_of_mem_head? head)
  cases bare.body with
  | none zero _ => exact adx zero
  | packed compressed _ _ => exact attr compressed
  | plain _ _ length _ =>
    rw [← length] at same
    omega

/-- Every memory that extends the packet has the same byte behind the head. -/
theorem Bare.framed_iff_taken (bare : Bare run n writes) (some' : 0 < n) : run.Framed ↔
    toInt32 (256 * (toUInt32 n % 2 ^ 24) + (run.memory 12).toNat) = n + 12 := by
  have ret := bare.ret
  have size : headSize run.object.head = 12 := by rw [headSize, if_neg bare.noExpand]; rfl
  have at_packet : ∀ m, AgreeBelow run.encoded.ret run.memory m → ∀ iLen,
      run.encoded.ret ≤ iLen → tlvPacketLen m iLen =
        toInt32 (256 * (toUInt32 n % 2 ^ 24) + (run.memory 12).toNat) := by
    intro m agree iLen long
    rw [ret] at agree long
    have flag : m 0 = adProtocolFlag := (agree 0 le_rfl (by omega)).symm.trans bare.flag
    have words : readBytes m 8 4 = beBytes 4 (toUInt32 n) := by
      rw [← bare.words]
      exact (readBytes_agree agree (by decide) (by push_cast; omega)).symm
    rw [tlvPacketLen_eq flag words (by omega), agree 12 (by decide) (by omega)]
  rw [Run.Framed, ret, size, bare.stored]
  constructor
  · rintro ⟨_, same⟩
    rw [← at_packet run.memory (fun _ _ _ => rfl) run.encoded.ret le_rfl]
    exact same _ (ret ▸ fun _ _ _ => rfl) _ (le_of_eq ret.symm)
  · intro same
    refine ⟨add_comm _ _, fun m agree iLen long => ?_⟩
    rw [at_packet m (ret ▸ agree) iLen (ret ▸ long), same]

/-- The byte behind the head is the key of the first record. -/
theorem Bare.first_key (bare : Bare run n writes) (some' : 0 < n)
    (length : n = toInt32 (stream (responseRecords run.response)).length)
    (records : writes = placed (headSize run.object.head) (responseRecords run.response)) :
    ∃ first, (responseRecords run.response).head? = some first ∧ run.memory 12 = first.1 := by
  have size : headSize run.object.head = 12 := by rw [headSize, if_neg bare.noExpand]; rfl
  cases split : responseRecords run.response with
  | nil =>
    rw [split] at length
    exact absurd (length.trans (by decide : toInt32 (stream []).length = 0)) (by omega)
  | cons first rest =>
    refine ⟨first, rfl, ?_⟩
    have body := replay_placed run.buffer (responseRecords run.response) 12
    rw [split, stream_cons, record, List.cons_append] at body
    rw [bare.behind, records, size, split]
    exact (readBytes_cons_iff.mp body).1

/-- A packet is framed exactly when its body answers its first key. -/
theorem framed_iff (run : Run z) : run.Framed ↔ run.Answers := by
  by_cases expand : run.object.head.expand = adProtocolExpand1
  · exact iff_of_false (expand_not_framed expand) fun answers => answers.1 expand
  obtain ⟨n, writes, bare⟩ := run_bare run expand
  by_cases empty : n ≤ 0
  · exact iff_of_false (bare.not_framed empty) (bare.not_answers empty)
  have some' : 0 < n := by omega
  have upper := bare.upper
  have byte := (run.memory 12).toNat_lt
  have word : toUInt32 n = n.toNat := by
    simp only [toUInt32]
    omega
  have answer := answer_iff (show 0 < n.toNat by omega) (by omega) byte
  rw [bare.framed_iff_taken some', word]
  rw [Int.toNat_of_nonneg (by omega)] at answer ⊢
  rw [answer]
  cases bare.body with
  | none _ zero => omega
  | packed compressed _ upper =>
    exact iff_of_false (by omega) fun answers => answers.2.1 compressed
  | plain adx attr length records =>
    obtain ⟨first, head, key⟩ := bare.first_key some' length records
    rw [key]
    constructor
    · intro same
      exact ⟨expand, attr, adx, first, head, length ▸ same⟩
    · rintro ⟨_, _, _, other, head', same⟩
      obtain rfl := Option.some.inj (head.symm.trans head')
      exact length.trans same

theorem total_cons (run : Run z) (runs : List (Run z)) :
    total (run :: runs) = run.encoded.ret + total runs := rfl

theorem total_nonneg (runs : List (Run z)) : 0 ≤ total runs := by
  induction runs with
  | nil => exact le_rfl
  | cons run runs ih =>
    have positive : 0 < run.encoded.ret := run.positive
    rw [total_cons]
    omega

theorem replyLoop_cut (m : Memory) (runs : List (Run z)) (framed : ∀ run ∈ runs, run.Framed)
    (offset : Int) (lower : 0 ≤ offset) (upper : offset + total runs < 2 ^ 31)
    (stand : Concatenated m offset runs) (pending : Nat) (enough : runs.length ≤ pending) :
    replyLoop m (offset + total runs) pending offset = boundaries offset runs := by
  induction runs generalizing offset pending with
  | nil =>
    cases pending with
    | zero => rfl
    | succ pending =>
      have nothing : offset + total ([] : List (Run z)) - offset < adProtocolHeadLen := by
        rw [show total ([] : List (Run z)) = 0 from rfl, adProtocolHeadLen]
        omega
      have short : tlvPacketLen (fun a => m (offset + a)) (offset + total ([] : List (Run z)) -
          offset) = adFailure := by
        rw [tlvPacketLen, if_pos nothing]
      simp only [replyLoop, short]
      exact if_neg (by decide)
  | cons run runs ih =>
    obtain ⟨here, behind⟩ := stand
    obtain ⟨pending, rfl⟩ : ∃ n, pending = n + 1 := ⟨pending - 1, by simp at enough; omega⟩
    have positive : 0 < run.encoded.ret := run.positive
    have rest := total_nonneg runs
    rw [total_cons] at upper ⊢
    have taken := (framed run List.mem_cons_self).2 (fun a => m (offset + a)) here
      (offset + (run.encoded.ret + total runs) - offset) (by omega)
    have next : toInt32 (offset + run.encoded.ret) = offset + run.encoded.ret :=
      (toInt32_eq_iff (by omega) (by omega)).mpr ⟨0, by omega⟩
    have later := ih (fun other inside => framed other (List.mem_cons_of_mem _ inside))
      (offset + run.encoded.ret) (by omega) (by omega) behind pending (by simpa using enough)
    simp only [replyLoop, taken, if_pos positive, next, boundaries, List.cons.injEq, true_and]
    split
    · rw [← later, add_assoc]
    case isFalse past =>
      -- nothing is left behind the last packet
      cases runs with
      | nil => rfl
      | cons other others =>
        have more : 0 < other.encoded.ret := other.positive
        have others := total_nonneg others
        rw [total_cons] at past
        omega

/-- Framing holds, of single packets and of every read that joins them, exactly for packets
whose body answers its first key. -/
theorem framing_iff (runs : List (Run z)) :
    ((∀ run ∈ runs, run.Framed) ∧ CutAtBoundaries runs) ↔ ∀ run ∈ runs, run.Answers := by
  constructor
  · rintro ⟨framed, _⟩ run inside
    exact (framed_iff run).mp (framed run inside)
  · intro answers
    have framed : ∀ run ∈ runs, run.Framed :=
      fun run inside => (framed_iff run).mpr (answers run inside)
    refine ⟨framed, fun m stand upper pending enough => ?_⟩
    have cut := replyLoop_cut m runs framed 0 le_rfl (by rwa [zero_add]) stand pending enough
    rwa [zero_add] at cut

/-- The answer to a bid request for exchange 1, with a bid of one character. -/
def bidResponse : AdRtbResponse where
  text
    | .bidID => ascii "b"
    | _ => []
  list _ := []
  adx := 1

/-- A fresh object encodes the answer into the buffer of the engine. -/
def bidRun : Run storedZlib where
  object := AdRtbProtocol.fresh
  response := bidResponse
  iLen := 8192
  fault := ⟨[], [], 0, fun _ => 0⟩
  buffer _ := 0
  reachable := .fresh
  positive := by decide

/-- Two such answers in one read. -/
def bidRead : Memory := fun a =>
  if a < bidRun.encoded.ret then bidRun.memory a else bidRun.memory (a - bidRun.encoded.ret)

theorem bid_read_uncut : ¬ bidRun.Framed ∧ ¬ CutAtBoundaries [bidRun, bidRun] := by
  constructor
  · rintro ⟨_, same⟩
    have taken := same bidRun.memory (fun _ _ _ => rfl) _ le_rfl
    exact absurd taken (by decide)
  · intro cut
    have stand : Concatenated bidRead 0 [bidRun, bidRun] := by
      refine ⟨fun a _ below => ?_, fun a lower below => ?_, trivial⟩
      · exact ((congrArg bidRead (zero_add a)).trans (if_pos below)).symm
      · rw [zero_add]
        exact ((if_neg (by omega)).trans (congrArg bidRun.memory (add_sub_cancel_left _ a))).symm
    have offsets := cut bidRead stand (by decide) 2 le_rfl
    exact absurd offsets (by decide)

end PacketFraming
