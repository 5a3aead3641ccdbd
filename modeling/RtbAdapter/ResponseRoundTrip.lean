import RtbAdapter.CodecRoundTrip

/-!
# The round trip of a response

A response comes back whole when its body and its packed body both fit the
array of the two zlib calls. For the converse the encoder is run with zlib
calls that fail quietly and with arrays filled with one byte.
-/

namespace ResponseRoundTrip

open ByteWords ByteMemory KeyValueStream RtbBase ZlibCalls NetProtocol RecordWriter RecordWalk
open Packets CodecRoundTrip

variable {z : Zlib} {fault : ZlibFault} {buffer : Memory} {iLen : Int}

variable (z fault) in
theorem response_encoded {r : AdRtbResponse} (adx : r.adx ≠ 0) (buffer : Memory) (iLen : Int) :
    let e := AdRtbProtocol.fresh.responseToTlv z fault r buffer iLen
    let packed := z.compress fault adKbytes4 (handed buffer (responseRecords r))
    let total := (responseRecords r).length % 2 ^ 16
    (Accepts (iLen - 12) (responsePairs r) ∧ packed.length + 12 ≤ iLen ∧
      e.ret = 12 + packed.length ∧
      e.writes = placed 12 (responseRecords r) ++ copyBack 12 packed ++
        [⟨0, headBytes (sentHead r.adx.toUInt8 2 total packed.length)⟩]) ∨
    ((¬ Accepts (iLen - 12) (responsePairs r) ∨ iLen < packed.length + 12) ∧
      e.ret = adFailure) := by
  dsimp only
  have start : headSize AdRtbProtocol.fresh.head = 12 := rfl
  rw [AdRtbProtocol.responseToTlv]
  simp only [start]
  rw [if_neg adx]
  rcases pass_cases ⟨12, iLen - 12, 0, []⟩ (responsePairs r) with
    ⟨accepts, c, pass, pos, writes, count⟩ | ⟨refused, pass⟩
  · have records : c.writes = placed 12 (responseRecords r) := by rw [writes]; rfl
    have length : c.pos - 12 = (stream (responseRecords r)).length := by
      rw [pos]; simp only [responseRecords]; omega
    have total : c.count = (responseRecords r).length % 2 ^ 16 := by
      rw [count (Nat.two_pow_pos 16)]; simp only [responseRecords, Nat.zero_add]
    rw [pass]
    have attr : AdRtbProtocol.fresh.head.attr = adProtocolBodyComp := rfl
    generalize hpacked : z.compress fault adKbytes4 (handed buffer (responseRecords r)) = packed
    have short : packed.length ≤ 4096 := hpacked ▸ compress_length
    have sent := writeHead_sent r.adx.toUInt8 2 ((responseRecords r).length % 2 ^ 16) short []
      (placed 12 (responseRecords r) ++ copyBack 12 packed)
    have source : compressSource buffer 12 (toInt32 (stream (responseRecords r)).length)
        (placed 12 (responseRecords r)) = handed buffer (responseRecords r) := rfl
    simp only [if_pos attr, records, length, total, source, hpacked]
    by_cases long : iLen < (packed.length : Int) + 12
    · rw [if_pos long]
      exact .inr ⟨.inr long, rfl⟩
    · rw [if_neg long]
      exact .inl ⟨accepts, by omega, congrArg Encoded.ret sent, congrArg Encoded.writes sent⟩
  · rw [pass]
    exact .inr ⟨.inl refused, rfl⟩

/-- The member a hot key comes back in. -/
def hotKeyText (hotKey : Bytes) : ResponseText :=
  if hotKey.take 3 = ascii "KW_" then .keyWord else .hotKey

/-- Every member the encoder writes is back, the hot key in the member its first
bytes ask for. -/
structure ResponseRestored (r d : AdRtbResponse) : Prop where
  adx : d.adx = r.adx
  text : ∀ t ≠ .hotKey, .text t ∈ (responseLayout (r.text .hotKey)).map Prod.snd →
    d.text t = r.text t
  hotKey : d.text (hotKeyText (r.text .hotKey)) = r.text .hotKey
  monitorUrl : d.list .monitorUrl = (r.list .monitorUrl).filter (· ≠ [])

/-- The layout of a response in the slots of the reader. -/
def responseSlots (hotKey : Bytes) : Layout ResponseText ResponseList :=
  (responseLayout hotKey).map fun e =>
    (e.1, if e.2 = .text .hotKey then .text (hotKeyText hotKey) else e.2)

/-- A response as the reader files it. -/
def filed (r : AdRtbResponse) : Message ResponseText ResponseList :=
  { r.toMessage with
    text := Function.update r.text (hotKeyText (r.text .hotKey)) (r.text .hotKey) }

theorem keyWord_unwritten (hotKey : Bytes) :
    Slot.text ResponseText.keyWord ∉ (responseLayout hotKey).map Prod.snd := by
  simp only [responseLayout, List.map_cons, List.map_nil]
  decide

theorem responsePairs_filed (r : AdRtbResponse) :
    responsePairs r = pairs (responseSlots (r.text .hotKey)) (filed r) := by
  refine (pairs_relabel (f := fun s : Slot ResponseText ResponseList => if s = .text .hotKey
    then .text (hotKeyText (r.text .hotKey)) else s) fun s hs => ?_).symm
  by_cases hot : s = .text .hotKey
  · subst hot
    simp [Message.values, filed]
  · rw [if_neg hot]
    cases s with
    | list l => rfl
    | text t =>
      have apart : t ≠ hotKeyText (r.text .hotKey) := by
        rintro rfl
        rw [hotKeyText] at hot hs
        split at hs
        · exact keyWord_unwritten _ hs
        case isFalse plain => exact hot (by rw [if_neg plain])
      simp [Message.values, filed, Function.update_of_ne apart]

theorem responseSlots_agree (hotKey : Bytes) :
    (∀ e ∈ responseSlots hotKey, responseTable e.1 = some e.2) ∧
      ((responseSlots hotKey).map Prod.snd).Nodup := by
  by_cases keyword : hotKey.take 3 = ascii "KW_"
  · simp only [responseSlots, responseLayout, hotKeyKey, hotKeyText, if_pos keyword]
    decide
  · simp only [responseSlots, responseLayout, hotKeyKey, hotKeyText, if_neg keyword]
    decide

theorem mem_responseSlots {hotKey : Bytes} {s : Slot ResponseText ResponseList} :
    s ∈ (responseSlots hotKey).map Prod.snd ↔
      s = .text (hotKeyText hotKey) ∨
        (s ≠ .text .hotKey ∧ s ∈ (responseLayout hotKey).map Prod.snd) := by
  have written : (hotKeyKey hotKey, Slot.text ResponseText.hotKey) ∈ responseLayout hotKey := by
    simp [responseLayout]
  simp only [responseSlots, List.map_map, List.mem_map, Function.comp_apply]
  constructor
  · rintro ⟨e, he, rfl⟩
    by_cases hot : e.2 = .text .hotKey
    · exact .inl (if_pos hot)
    · rw [if_neg hot]
      exact .inr ⟨hot, e, he, rfl⟩
  · rintro (rfl | ⟨hot, e, he, rfl⟩)
    · exact ⟨_, written, if_pos rfl⟩
    · exact ⟨e, he, if_neg hot⟩

theorem filed_values {r : AdRtbResponse} {s : Slot ResponseText ResponseList}
    (hot : s ≠ .text .hotKey) (written : s ∈ (responseLayout (r.text .hotKey)).map Prod.snd) :
    (filed r).trim.values s = r.toMessage.trim.values s := by
  cases s with
  | list l => rfl
  | text t =>
    have apart : t ≠ hotKeyText (r.text .hotKey) := by
      rintro rfl
      rw [hotKeyText] at hot written
      split at written
      · exact keyWord_unwritten _ written
      case isFalse plain => exact hot (by rw [if_neg plain])
    simp [Message.values, Message.trim, filed, Function.update_of_ne apart]

theorem responseRestored_iff (r d : AdRtbResponse) :
    ResponseRestored r d ↔
      d.adx = r.adx ∧ Restored (responseSlots (r.text .hotKey)) (filed r) d.toMessage := by
  have hotValue : (filed r).trim.values (.text (hotKeyText (r.text .hotKey))) =
      [r.text .hotKey] := by
    simp [Message.values, Message.trim, filed]
  have urlWritten : Slot.list ResponseList.monitorUrl ∈
      (responseLayout (r.text .hotKey)).map Prod.snd := by
    simp [responseLayout]
  constructor
  · rintro ⟨adx, text, hotKey, monitorUrl⟩
    refine ⟨adx, fun s hs => ?_⟩
    rcases mem_responseSlots.mp hs with rfl | ⟨hot, written⟩
    · rw [hotValue, Message.values, hotKey]
    · rw [filed_values hot written]
      cases s with
      | text t => exact congrArg ([·]) (text t (fun same => hot (congrArg _ same)) written)
      | list l => exact monitorUrl
  · rintro ⟨adx, restored⟩
    refine ⟨adx, fun t hot written => ?_, ?_, ?_⟩
    · have apart : Slot.text t ≠ Slot.text (L := ResponseList) ResponseText.hotKey :=
        fun same => hot (Slot.text.inj same)
      have same := restored (.text t) (mem_responseSlots.mpr (.inr ⟨apart, written⟩))
      rw [filed_values apart written] at same
      exact List.singleton_inj.mp same
    · have same := restored _ (mem_responseSlots.mpr (.inl rfl))
      rw [hotValue] at same
      exact List.singleton_inj.mp same
    · have apart : Slot.list .monitorUrl ≠ Slot.text (L := ResponseList) ResponseText.hotKey := by
        intro same
        cases same
      have same := restored (.list .monitorUrl) (mem_responseSlots.mpr (.inr ⟨apart, urlWritten⟩))
      rwa [filed_values apart urlWritten] at same

/-- Encoding with a fresh object and decoding the packet, in any memory that holds it. -/
def RoundTrip (z : Zlib) (r : AdRtbResponse) (iLen : Int) : Prop :=
  ∀ (fault : ZlibFault) (buffer : Memory),
    let e := AdRtbProtocol.fresh.responseToTlv z fault r buffer iLen
    0 < e.ret → ∀ (p : AdRtbProtocol) (m : Memory), AgreeBelow e.ret (replay buffer e.writes) m →
      let d := p.tlvToResponse z fault m e.ret
      d.ret = some adSuccess ∧ ResponseRestored r d.value

/-- The encoder refuses the response after compression, whatever the buffer held before:
the head and the packed body are longer than the buffer. -/
def PackedRefused (z : Zlib) (r : AdRtbResponse) (iLen : Int) : Prop :=
  iLen < 12 ∨ ∀ buffer,
    (z.deflate (handed buffer (responseRecords r))).length ≤ adKbytes4 ∧
      iLen < 12 + (z.deflate (handed buffer (responseRecords r))).length

theorem response_trip {r : AdRtbResponse} (low : 1 ≤ r.adx) (high : r.adx ≤ 255)
    (positive : 0 < (AdRtbProtocol.fresh.responseToTlv z fault r buffer iLen).ret)
    (p : AdRtbProtocol) {m : Memory}
    (agree : AgreeBelow (AdRtbProtocol.fresh.responseToTlv z fault r buffer iLen).ret
      (replay buffer (AdRtbProtocol.fresh.responseToTlv z fault r buffer iLen).writes) m) :
    let packed := z.compress fault adKbytes4 (handed buffer (responseRecords r))
    let w := unpackedWalk z fault responseTable packed ((responseRecords r).length % 2 ^ 16)
    let d := p.tlvToResponse z fault m
      (AdRtbProtocol.fresh.responseToTlv z fault r buffer iLen).ret
    (Accepts (iLen - 12) (responsePairs r) ∧ packed.length + 12 ≤ iLen) ∧
      (w.returned = true → d.ret = some adSuccess ∧
        d.value = { toMessage := w.message, adx := r.adx }) ∧
      (w.returned = false → d.ret = none) := by
  have some_adx : r.adx ≠ 0 := by rintro zero; rw [zero] at low; exact absurd low (by decide)
  have type : r.adx.toUInt8.toUInt32 = r.adx := adx_byte high
  rcases response_encoded z fault some_adx buffer iLen with
    ⟨accepts, room, ret, writes⟩ | ⟨_, ret⟩
  · refine ⟨⟨accepts, room⟩, ?_⟩
    rw [ret] at agree ⊢
    rw [writes] at agree
    have holds := (holds_after buffer (placed 12 (responseRecords r)) _ _).agree agree
    have decoded := response_decoded z fault p holds
      (Nat.mod_lt _ (Nat.two_pow_pos 16)) compress_length
    rwa [type] at decoded
  · rw [ret] at positive
    exact absurd positive (by decide)

theorem harmless_response {c : UInt8} (h : c = 0 ∨ c = 1) : Harmless responseTable c := by
  rcases h with rfl | rfl
  · exact ⟨rfl, by decide⟩
  · exact ⟨rfl, by decide⟩

theorem responseRecords_filed (r : AdRtbResponse) :
    responseRecords r = present (pairs (responseSlots (r.text .hotKey)) (filed r)) := by
  rw [responseRecords, responsePairs_filed]

theorem response_fits_of_trip {r : AdRtbResponse} (low : 1 ≤ r.adx) (high : r.adx ≤ 255)
    (trip : RoundTrip z r iLen) (accepts : Accepts (iLen - 12) (responsePairs r)) :
    PackedRefused z r iLen ∨ BodyFits z (responseRecords r) := by
  obtain ⟨slots, once⟩ := responseSlots_agree (r.text .hotKey)
  have records := responseRecords_filed r
  by_cases refused : PackedRefused z r iLen
  · exact .inl refused
  refine .inr ?_
  simp only [PackedRefused, not_or, not_forall, not_and, not_lt] at refused
  obtain ⟨room, buffer, admitted⟩ := refused
  -- whatever zlib leaves behind, this run returns a packet
  have back : ∀ c,
      let packed := z.compress (quietFault c) adKbytes4 (handed buffer (responseRecords r))
      let w := unpackedWalk z (quietFault c) responseTable packed
        ((responseRecords r).length % 2 ^ 16)
      w.returned = true ∧
        Restored (responseSlots (r.text .hotKey)) (filed r) w.message := by
    intro c
    have some_adx : r.adx ≠ 0 := by
      rintro zero
      rw [zero] at low
      exact absurd low (by decide)
    have positive : 0 < (AdRtbProtocol.fresh.responseToTlv z (quietFault c) r buffer iLen).ret := by
      rcases response_encoded z (quietFault c) some_adx buffer iLen with
        ⟨_, _, ret, _⟩ | ⟨reason, _⟩
      · omega
      · rcases reason with refused | long
        · exact absurd accepts refused
        · by_cases packs :
            (z.deflate (handed buffer (responseRecords r))).length ≤ adKbytes4
          · rw [compress_ok packs] at long
            have := admitted packs
            omega
          · rw [compress_failed (by omega)] at long
            have nothing : (quietFault c).compressed.take adKbytes4 = [] := rfl
            rw [nothing, List.length_nil] at long
            omega
    obtain ⟨_, done, thrown⟩ := response_trip low high
      positive AdRtbProtocol.fresh (fun _ _ _ => rfl)
    obtain ⟨success, restored⟩ :=
      trip (quietFault c) buffer positive AdRtbProtocol.fresh _ (fun _ _ _ => rfl)
    dsimp only
    cases ended : (unpackedWalk z (quietFault c) responseTable
        (z.compress (quietFault c) adKbytes4 (handed buffer (responseRecords r)))
        ((responseRecords r).length % 2 ^ 16)).returned with
    | false =>
      rw [thrown ended] at success
      cases success
    | true =>
      rw [(done ended).2, responseRestored_iff] at restored
      exact ⟨rfl, restored.2⟩
  by_cases fails : adKbytes4 < (z.deflate (handed buffer (responseRecords r))).length ∨
      adKbytes4 < (handed buffer (responseRecords r)).length
  · have restored := (back 0).2
    rw [lost_body _ fails] at restored
    exact absurd fails (not_lost_of_nil (records ▸ nothing_restored restored))
  · rw [not_or, not_lt, not_lt] at fails
    have packs : ∀ c, z.compress (quietFault c) adKbytes4 (handed buffer (responseRecords r)) =
        z.deflate (handed buffer (responseRecords r)) := fun c => compress_ok fails.1
    simp only [packs] at back
    have short : ∀ kv ∈ responseRecords r, kv.2.length < 2 ^ 31 := by
      rw [records]
      exact restored_short (back 0).2 (walk_shortValues _ _ shortValues_empty)
    have known : ∀ kv ∈ responseRecords r, (responseTable kv.1).isSome := by
      rw [records]
      intro kv h
      obtain ⟨s, hs, _⟩ := mem_present_pairs h
      rw [slots _ hs]
      rfl
    have bound := cut_body_bound once fails.2 (handed_starts fails.2).1 known short
      (c := 0) (d := 1) (by decide) (harmless_response (.inl rfl))
      (harmless_response (.inr rfl)) (fun c _ => back c)
    rw [← records] at bound
    have limit := fails.2
    simp only [adKbytes4] at limit
    exact fits_of_cut fails.1 fails.2 (by omega)

theorem response_trip_of_fits {r : AdRtbResponse} (low : 1 ≤ r.adx) (high : r.adx ≤ 255)
    (fits : Accepts (iLen - 12) (responsePairs r) →
      PackedRefused z r iLen ∨ BodyFits z (responseRecords r)) : RoundTrip z r iLen := by
  intro fault buffer e positive p m agree
  obtain ⟨slots, once⟩ := responseSlots_agree (r.text .hotKey)
  have records := responseRecords_filed r
  obtain ⟨⟨accepts, room⟩, done, _⟩ := response_trip low high positive p agree
  rcases fits accepts with refused | ⟨body, packs⟩
  · rcases refused with tiny | long
    · omega
    · obtain ⟨packs, long⟩ := long buffer
      rw [compress_ok packs] at room
      omega
  · have whole : handed buffer (responseRecords r) = stream (responseRecords r) :=
      handed_eq buffer (by simp only [adKbytes4] at body; omega)
    have count : (responseRecords r).length % 2 ^ 16 = (responseRecords r).length := by
      have bound := stream_length_count (responseRecords r)
      simp only [adKbytes4] at body
      omega
    rw [whole, compress_ok packs, count] at done
    obtain ⟨returned, message⟩ := unpackedWalk_stream z fault responseTable body
    obtain ⟨success, value⟩ := done returned
    refine ⟨success, ?_⟩
    rw [responseRestored_iff, value, message]
    refine ⟨rfl, ?_⟩
    rw [records]
    exact load_restored (filed r) _ slots once Message.empty (fun _ _ => .inl rfl)
      (fun _ _ => rfl)

/-- A response whose members pass the space checks comes back exactly when the packed body
is refused or both the body and the packed body fit. -/
theorem response_round_trip_iff (z : Zlib) (r : AdRtbResponse) (iLen : Int) (low : 1 ≤ r.adx)
    (high : r.adx ≤ 255) :
    RoundTrip z r iLen ↔
      (Accepts (iLen - 12) (responsePairs r) →
        PackedRefused z r iLen ∨ BodyFits z (responseRecords r)) :=
  ⟨response_fits_of_trip low high, response_trip_of_fits low high⟩

/-- A response of exchange 1 with nothing but a snippet. -/
def htmlResponse (html : Bytes) : AdRtbResponse where
  text
    | .html => html
    | _ => []
  list _ := []
  adx := 1

theorem short_html_restored : RoundTrip storedZlib (htmlResponse (ascii "<a>")) 8192 :=
  (response_round_trip_iff storedZlib (htmlResponse (ascii "<a>")) 8192 (by decide)
    (by decide)).mpr fun _ => .inr ⟨by decide, by decide⟩

theorem htmlResponse_records {html : Bytes} (value : html ≠ []) :
    responseRecords (htmlResponse html) = [(213, html)] := by
  simp [responseRecords, responsePairs, responseLayout, pairs, present, Message.values,
    htmlResponse, value]

theorem html_lost {html : Bytes} (long : 4091 < html.length) (room : html.length ≤ 8175)
    (z : Zlib) : ¬ RoundTrip z (htmlResponse html) 8192 := by
  intro trip
  have value : html ≠ [] := by rintro rfl; cases long
  have records := htmlResponse_records value
  have accepts : Accepts (8192 - 12) (responsePairs (htmlResponse html)) := by
    have small : toInt32 (5 + html.length) = 5 + html.length :=
      toInt32_of_range (by omega) (by omega)
    rw [responseRecords] at records
    rw [Accepts, records, accepted, accepted, if_neg]
    rw [small]
    omega
  have low : (1 : UInt32) ≤ (htmlResponse html).adx := show (1 : UInt32) ≤ 1 by decide
  have high : (htmlResponse html).adx ≤ 255 := show (1 : UInt32) ≤ 255 by decide
  rcases response_fits_of_trip low high trip accepts with refused | ⟨body, _⟩
  · rcases refused with tiny | long
    · exact absurd tiny (by decide)
    · obtain ⟨packs, long⟩ := long fun _ => 0
      simp only [adKbytes4] at packs
      omega
  · rw [records, stream_cons, List.length_append, record_length, stream_nil,
      List.length_nil] at body
    simp only [adKbytes4] at body
    omega

/-- A snippet of 5000 bytes fits the 8192 byte buffer and is lost with every zlib: the
uncompressed body is longer than the 4096 bytes given to `uncompress`. -/
theorem long_html_lost :
    ¬ ∃ z : Zlib, RoundTrip z (htmlResponse (List.replicate 5000 0x61)) 8192 := by
  rintro ⟨z, trip⟩
  refine html_lost ?_ ?_ z trip <;> rw [List.length_replicate] <;> decide

end ResponseRoundTrip
