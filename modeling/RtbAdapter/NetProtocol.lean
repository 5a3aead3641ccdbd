import RtbAdapter.RtbBase
import RtbAdapter.ZlibCalls

/-!
# The net protocol of requests and responses

`AdRtbProtocol` packs a request or a response behind a head of twelve bytes
and an optional expand head of four. The encoder is described by the writes it
makes to the buffer it is given, the decoder by the accesses it makes to the
packet it is given, so that neither is assumed to stay inside.
-/

namespace NetProtocol

open ByteWords ByteMemory KeyValueStream RtbBase ZlibCalls

def adSuccess : Int := 0
def adFailure : Int := -1

def adProtocolExpand1 : UInt8 := 1
def adProtocolFlag : UInt8 := 0xe8
def adProtocolBodyComp : UInt8 := 0x01
def adProtocolVerbRequest : UInt8 := 1
def adProtocolVerbResponse : UInt8 := 2
def adProtocolResultOk : UInt8 := 0
def adProtocolResultUnknow : UInt8 := 0xff
def adProtocolHeadLen : Int := 12
def adProtocolHeadExpandLen : Int := 4
def adKbytes4 : Nat := 4096

/-- `usTotal` is a 16-bit word and `iLength` a 32-bit `int`. -/
structure AdProtocolHead where
  flag : UInt8
  version : UInt8
  protocol : UInt8
  wide : UInt8
  response : UInt8
  expand : UInt8
  type : UInt8
  verb : UInt8
  attr : UInt8
  result : UInt8
  total : Nat
  length : Int
  deriving DecidableEq

structure AdRtbProtocol where
  head : AdProtocolHead
  exHead : Bytes
  deriving DecidableEq

/-- The constructor. -/
def AdRtbProtocol.fresh : AdRtbProtocol where
  head :=
    { flag := adProtocolFlag, version := 1, protocol := 1, wide := 0, response := 1, expand := 0
      type := 0, verb := adProtocolVerbRequest, attr := 1, result := adProtocolResultOk
      total := 0, length := 0 }
  exHead := []

/-- The head after `memset`. -/
def AdProtocolHead.zero : AdProtocolHead :=
  { flag := 0, version := 0, protocol := 0, wide := 0, response := 0, expand := 0
    type := 0, verb := 0, attr := 0, result := 0, total := 0, length := 0 }

def headSize (h : AdProtocolHead) : Int :=
  if h.expand = adProtocolExpand1 then adProtocolHeadLen + adProtocolHeadExpandLen
  else adProtocolHeadLen

def packBits (h : AdProtocolHead) : UInt8 :=
  h.version <<< 4 ||| h.protocol <<< 3 ||| h.wide <<< 2 ||| h.response <<< 1 ||| h.expand

/-- The second byte is read through a signed `char`, so its version keeps the sign. -/
def unpackBits (b : UInt8) (h : AdProtocolHead) : AdProtocolHead :=
  { h with
    version := (if 0x80 ≤ b then (0xf0 : UInt8) else 0) ||| (b >>> 4)
    protocol := (b &&& 0x0f) >>> 3
    wide := (b &&& 0x07) >>> 2
    response := (b &&& 0x03) >>> 1
    expand := b &&& 0x01 }

def headBytes (h : AdProtocolHead) : Bytes :=
  [adProtocolFlag, packBits h, h.type, h.verb, h.attr, h.result] ++
    beBytes 2 h.total ++ beBytes 4 (toUInt32 h.length)

def readHead (m : Memory) : AdProtocolHead :=
  unpackBits (m 1)
    { AdProtocolHead.zero with
      flag := m 0
      type := m 2
      verb := m 3
      attr := m 4
      result := m 5
      total := beNat (readBytes m 6 2)
      length := toInt32 (beNat (readBytes m 8 4)) }

/-- `pCur` relative to the buffer, `iSpace`, `usCount` and the writes so far. -/
structure Cursor where
  pos : Int
  space : Int
  count : Nat
  writes : List Write

def Cursor.write (c : Cursor) (kv : UInt8 × Bytes) : Cursor :=
  { c with
    pos := c.pos + (5 + kv.2.length)
    count := (c.count + 1) % 2 ^ 16
    writes := c.writes ++ [⟨c.pos, record kv⟩] }

/-- `AD_PROTOCOL_KV`. A refusal returns from the encoder with the writes made so far. -/
def adProtocolKv (c : Cursor) (kv : UInt8 × Bytes) : Except (List Write) Cursor :=
  if kv.2 = [] then .ok c
  else if c.space < toInt32 (5 + kv.2.length) then .error c.writes
  else .ok { c.write kv with space := toInt32 (c.space - (5 + kv.2.length)) }

structure Encoded where
  ret : Int
  writes : List Write
  protocol : AdRtbProtocol

/-- The end of both encoders: the head, the expand head behind it, the returned length. -/
def writeHead (p : AdRtbProtocol) (size dataLen : Int) (writes : List Write) : Encoded :=
  let writes := writes ++ [⟨0, headBytes p.head⟩]
  if p.head.expand = adProtocolExpand1 then
    ⟨toInt32 (dataLen + size + p.exHead.length), writes ++ [⟨12, p.exHead⟩], p⟩
  else ⟨toInt32 (dataLen + size), writes, p⟩

/-- The source `compress` is given: `dataLen` bytes of the buffer, behind the head. -/
def compressSource (buffer : Memory) (size dataLen : Int) (writes : List Write) : Bytes :=
  readBytes (replay buffer writes) size (toULong dataLen)

/-- The compressed body copied back, and the byte that ends it. -/
def copyBack (size : Int) (compressed : Bytes) : List Write :=
  [⟨size, compressed⟩, ⟨size + compressed.length, [0]⟩]

-- Members in the order in which they are written, with their keys.

def requestLayout : Layout RequestText RequestList :=
  [(136, .text .flow), (102, .text .bidID), (101, .text .userID), (103, .text .userIP),
    (203, .text .pId), (234, .list .siteCategory), (204, .text .size), (104, .text .userAgent),
    (106, .text .userUrl), (243, .text .devUniqueType), (210, .text .adViewScreen),
    (206, .text .adViewType), (207, .list .create), (253, .list .crowdCategory),
    (114, .list .category), (254, .list .ualist), (220, .list .materialFormat),
    (112, .list .sensitive), (208, .text .minPrice), (123, .text .videoMinTime),
    (124, .text .videoMaxTime), (127, .text .linearity), (232, .list .mobileOperator),
    (122, .list .mobileDevice), (231, .list .mobileConnect), (240, .text .transaction),
    (90, .text .idfa), (91, .text .imei), (92, .text .androidID)]

/-- The key of the hot key depends on its first three bytes. -/
def hotKeyKey (hotKey : Bytes) : UInt8 := if hotKey.take 3 = ascii "KW_" then 249 else 236

def responseLayout (hotKey : Bytes) : Layout ResponseText ResponseList :=
  [(135, .text .area), (255, .text .region), (237, .text .hotUrl), (238, .text .hotTime),
    (244, .text .hotTag), (102, .text .bidID), (133, .text .execID), (101, .text .userID),
    (103, .text .userIP), (203, .text .pId), (204, .text .size), (132, .text .orderID),
    (219, .text .creativeID), (245, .text .createGID), (134, .text .materialID), (229, .text .uud),
    (215, .text .creative), (131, .text .targetPriceType), (211, .text .maxPrice),
    (107, .text .category), (213, .text .html), (251, .text .htmlMraid), (218, .text .destUrl),
    (214, .text .clickUrl), (242, .text .duration), (241, .text .advertiserId),
    (246, .text .targetPrice), (220, .text .materailFormat), (247, .text .adirectID),
    (248, .text .cookID), (110, .text .tanxID), (122, .text .devType),
    (hotKeyKey hotKey, .text .hotKey), (239, .list .monitorUrl)]

def requestPairs (r : AdRtbRequest) : List (UInt8 × Bytes) := pairs requestLayout r.toMessage

def responsePairs (r : AdRtbResponse) : List (UInt8 × Bytes) :=
  pairs (responseLayout (r.text .hotKey)) r.toMessage

/-- The first record of a request is written without a look at the space, and not charged. -/
def requestStart (r : AdRtbRequest) (iLen : Int) : Cursor :=
  let start : Cursor := ⟨adProtocolHeadLen, iLen - adProtocolHeadLen, 0, []⟩
  if r.text .flow = [] then start else start.write (136, r.text .flow)

variable (z : Zlib) (fault : ZlibFault)

/-- `InternalToTlv` for requests, into a buffer of `iLen` bytes. -/
def AdRtbProtocol.requestToTlv (p : AdRtbProtocol) (r : AdRtbRequest) (buffer : Memory)
    (iLen : Int) : Encoded :=
  let p := { p with head := { p.head with type := r.adx.toUInt8 } }
  match (requestPairs r).foldlM adProtocolKv (requestStart r iLen) with
  | .error writes => ⟨adFailure, writes, p⟩
  | .ok c =>
    let dataLen := toInt32 (c.pos - adProtocolHeadLen)
    if p.head.attr = adProtocolBodyComp then
      let packed := z.compress fault adKbytes4
        (compressSource buffer adProtocolHeadLen dataLen c.writes)
      let p := { p with head := { p.head with length := packed.length, total := c.count } }
      writeHead p adProtocolHeadLen packed.length (c.writes ++ copyBack adProtocolHeadLen packed)
    else
      let p := { p with head := { p.head with length := dataLen, total := c.count } }
      writeHead p adProtocolHeadLen dataLen c.writes

/-- `InternalToTlv` for responses, into a buffer of `iLen` bytes. -/
def AdRtbProtocol.responseToTlv (p : AdRtbProtocol) (r : AdRtbResponse) (buffer : Memory)
    (iLen : Int) : Encoded :=
  let size := headSize p.head
  let p := { p with head := { p.head with type := r.adx.toUInt8 } }
  if r.adx = 0 then
    let p := { p with head := { p.head with
      result := adProtocolResultUnknow, length := 0, total := 0, verb := adProtocolVerbResponse } }
    writeHead p size 0 []
  else
    match (responsePairs r).foldlM adProtocolKv ⟨size, iLen - size, 0, []⟩ with
    | .error writes => ⟨adFailure, writes, p⟩
    | .ok c =>
      let dataLen := toInt32 (c.pos - size)
      if p.head.attr = adProtocolBodyComp then
        let packed := z.compress fault adKbytes4 (compressSource buffer size dataLen c.writes)
        if iLen < packed.length + size then ⟨adFailure, c.writes, p⟩
        else
          let p := { p with head := { p.head with
            length := packed.length, total := c.count, verb := adProtocolVerbResponse } }
          writeHead p size packed.length (c.writes ++ copyBack size packed)
      else
        let p := { p with head := { p.head with
          length := dataLen, total := c.count, verb := adProtocolVerbResponse } }
        writeHead p size dataLen c.writes

/-- Where the decoder reads: in the packet, or in the array `uncompress` filled. -/
inductive Region where
  | packet
  | scratch
  deriving DecidableEq

structure Access where
  region : Region
  start : Int
  size : Nat
  deriving DecidableEq

variable {T L : Type} [DecidableEq T] [DecidableEq L]

/-- What the key and value loop leaves: the message, whether the loop was left
by its own end (a negative length makes `assign` throw), the bytes it read and
the lengths it added to `pCur`. -/
structure Walk (T L : Type) where
  message : Message T L
  returned : Bool
  accesses : List Access
  moves : List Int

def Walk.after (accesses : List Access) (move : Int) (w : Walk T L) : Walk T L :=
  { w with accesses := accesses ++ w.accesses, moves := move :: w.moves }

/-- The key and value loop over `rest` more pairs. The body starts at `base` of
the region, and `pos` is `pCur - pBody`. -/
def walk (table : Table T L) (region : Region) (m : Memory) (base length : Int) :
    Nat → Int → Message T L → Walk T L
  | 0, _, msg => ⟨msg, true, [], []⟩
  | rest + 1, pos, msg =>
    if toInt32 pos < length then
      let kvLen := toInt32 (beNat (readBytes m (base + pos + 1) 4))
      let head : List Access := [⟨region, base + pos, 1⟩, ⟨region, base + pos + 1, 4⟩]
      match table (m (base + pos)) with
      | some slot =>
        if kvLen < 0 then ⟨msg, false, head, []⟩
        else
          (walk table region m base length rest (pos + 5 + kvLen)
            (slot.assign (readBytes m (base + pos + 5) kvLen.toNat) msg)).after
            (head ++ [⟨region, base + pos + 5, kvLen.toNat⟩]) kvLen
      | none => (walk table region m base length rest (pos + 5 + kvLen) msg).after head kvLen
    else ⟨msg, true, [], []⟩

/-- The body behind a complete head: uncompressed first when the head says so. -/
def walkBody (table : Table T L) (m : Memory) (h : AdProtocolHead) (msg : Message T L) :
    Walk T L :=
  let base := headSize h
  if h.attr = adProtocolBodyComp then
    let source := toULong h.length
    let out := z.uncompress fault adKbytes4 (readBytes m base source)
    let w := walk table .scratch out.memory 0 out.length h.total 0 msg
    { w with accesses := ⟨.packet, base, source⟩ :: w.accesses }
  else walk table .packet m base h.length h.total 0 msg

/-- The head after the body was looked at: its length is the uncompressed one. -/
def headAfter (m : Memory) (h : AdProtocolHead) : AdProtocolHead :=
  if h.attr = adProtocolBodyComp then
    { h with length :=
      (z.uncompress fault adKbytes4 (readBytes m (headSize h) (toULong h.length))).length }
  else h

/-- No key has two entries: these are the assignments to `m_mParse` for a request. -/
def requestTable : Table RequestText RequestList
  | 136 => some (.text .flow)
  | 102 => some (.text .bidID)
  | 101 => some (.text .userID)
  | 103 => some (.text .userIP)
  | 203 => some (.text .pId)
  | 234 => some (.list .siteCategory)
  | 204 => some (.text .size)
  | 104 => some (.text .userAgent)
  | 106 => some (.text .userUrl)
  | 243 => some (.text .devUniqueType)
  | 210 => some (.text .adViewScreen)
  | 206 => some (.text .adViewType)
  | 207 => some (.list .create)
  | 114 => some (.list .category)
  | 254 => some (.list .ualist)
  | 220 => some (.list .materialFormat)
  | 112 => some (.list .sensitive)
  | 208 => some (.text .minPrice)
  | 123 => some (.text .videoMinTime)
  | 124 => some (.text .videoMaxTime)
  | 127 => some (.text .linearity)
  | 232 => some (.list .mobileOperator)
  | 122 => some (.list .mobileDevice)
  | 231 => some (.list .mobileConnect)
  | 240 => some (.text .transaction)
  | 90 => some (.text .idfa)
  | 91 => some (.text .imei)
  | 92 => some (.text .androidID)
  | _ => none

/-- The assignments to `m_mParse` for a response. -/
def responseTable : Table ResponseText ResponseList
  | 135 => some (.text .area)
  | 255 => some (.text .region)
  | 237 => some (.text .hotUrl)
  | 238 => some (.text .hotTime)
  | 244 => some (.text .hotTag)
  | 102 => some (.text .bidID)
  | 133 => some (.text .execID)
  | 101 => some (.text .userID)
  | 103 => some (.text .userIP)
  | 203 => some (.text .pId)
  | 204 => some (.text .size)
  | 132 => some (.text .orderID)
  | 219 => some (.text .creativeID)
  | 245 => some (.text .createGID)
  | 134 => some (.text .materialID)
  | 229 => some (.text .uud)
  | 215 => some (.text .creative)
  | 131 => some (.text .targetPriceType)
  | 211 => some (.text .maxPrice)
  | 107 => some (.text .category)
  | 213 => some (.text .html)
  | 251 => some (.text .htmlMraid)
  | 218 => some (.text .destUrl)
  | 214 => some (.text .clickUrl)
  | 242 => some (.text .duration)
  | 241 => some (.text .advertiserId)
  | 246 => some (.text .targetPrice)
  | 220 => some (.text .materailFormat)
  | 247 => some (.text .adirectID)
  | 248 => some (.text .cookID)
  | 110 => some (.text .tanxID)
  | 122 => some (.text .devType)
  | 249 => some (.text .keyWord)
  | 236 => some (.text .hotKey)
  | 239 => some (.list .monitorUrl)
  | _ => none

/-- `ret` is `none` when `assign` throws `length_error` out of the decoder. -/
structure Decoded (R : Type) where
  ret : Option Int
  value : R
  protocol : AdRtbProtocol
  accesses : List Access
  moves : List Int

/-- The bytes a decoder reads before it looks at the body. -/
def headAccesses (h : AdProtocolHead) : List Access :=
  [⟨.packet, 0, 1⟩, ⟨.packet, 1, 11⟩] ++
    if h.expand = adProtocolExpand1 then [⟨.packet, 12, 4⟩] else []

/-- The expand head is taken before the length of the packet is compared. -/
def AdRtbProtocol.takeHead (p : AdRtbProtocol) (m : Memory) (h : AdProtocolHead) :
    AdRtbProtocol :=
  ⟨h, if h.expand = adProtocolExpand1 then readBytes m 12 4 else p.exHead⟩

/-- The end of the request decoder: the exchange, and its own kind of transaction. -/
def received (now : Time) (adx : UInt32) (m : Message RequestText RequestList) : AdRtbRequest where
  text := Function.update m.text .transaction (ascii "1")
  list := m.list
  adx := adx
  time := now

/-- `TlvToInternal` for requests, on a packet of `iLen` bytes. -/
def AdRtbProtocol.tlvToRequest (p : AdRtbProtocol) (now : Time) (m : Memory) (iLen : Int) :
    Decoded AdRtbRequest :=
  let cleared := AdRtbRequest.clear now
  if iLen < adProtocolHeadLen then
    ⟨some adFailure, cleared, { p with head := AdProtocolHead.zero }, [], []⟩
  else if m 0 ≠ adProtocolFlag then
    ⟨some adFailure, cleared, { p with head := { AdProtocolHead.zero with flag := m 0 } },
      [⟨.packet, 0, 1⟩], []⟩
  else
    let h := readHead m
    let p := p.takeHead m h
    if iLen < toInt32 (headSize h + h.length) then
      ⟨some adFailure, cleared, p, headAccesses h, []⟩
    else
      let w := walkBody z fault requestTable m h cleared.toMessage
      let p := { p with head := headAfter z fault m h }
      let accesses := headAccesses h ++ w.accesses
      if w.returned then
        ⟨some adSuccess, received now h.type.toUInt32 w.message, p, accesses, w.moves⟩
      else ⟨none, { cleared with toMessage := w.message }, p, accesses, w.moves⟩

/-- `TlvToInternal` for responses. Unlike the request's, it does not look at
`iLen` before it reads the head, and every regular end sets the exchange. -/
def AdRtbProtocol.tlvToResponse (p : AdRtbProtocol) (m : Memory) (iLen : Int) :
    Decoded AdRtbResponse :=
  let cleared := AdRtbResponse.clear
  if m 0 ≠ adProtocolFlag then
    ⟨some adFailure, cleared, { p with head := { AdProtocolHead.zero with flag := m 0 } },
      [⟨.packet, 0, 1⟩], []⟩
  else
    let h := readHead m
    let p := p.takeHead m h
    if iLen < toInt32 (headSize h + h.length) ∨ h.result ≠ adProtocolResultOk then
      ⟨some adFailure, { cleared with adx := h.type.toUInt32 }, p, headAccesses h, []⟩
    else
      let w := walkBody z fault responseTable m h cleared.toMessage
      let p := { p with head := headAfter z fault m h }
      let accesses := headAccesses h ++ w.accesses
      if w.returned then
        ⟨some adSuccess, { toMessage := w.message, adx := h.type.toUInt32 }, p, accesses, w.moves⟩
      else ⟨none, { cleared with toMessage := w.message }, p, accesses, w.moves⟩

/-- `TlvPacketLen`: the flag is skipped and the length is taken eight bytes further. -/
def tlvPacketLen (m : Memory) (iLen : Int) : Int :=
  if iLen < adProtocolHeadLen then adFailure
  else if m 0 = adProtocolFlag then toInt32 (beNat (readBytes m 9 4))
  else adFailure

end NetProtocol
