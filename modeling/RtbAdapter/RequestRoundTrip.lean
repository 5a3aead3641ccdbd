import RtbAdapter.CodecRoundTrip

/-!
# The round trip of a request

A request comes back when its body and its packed body fit the array of the
two zlib calls and it carries no crowd category: those are written under a key
the reader has no entry for. The kind of transaction is the reader's own.
-/

namespace RequestRoundTrip

open ByteWords ByteMemory KeyValueStream RtbBase ZlibCalls NetProtocol RecordWriter RecordWalk
open Packets CodecRoundTrip

variable {z : Zlib} {fault : ZlibFault} {buffer : Memory} {iLen : Int}

variable (z fault) in
theorem request_encoded (r : AdRtbRequest) (buffer : Memory) (iLen : Int) :
    let e := AdRtbProtocol.fresh.requestToTlv z fault r buffer iLen
    let packed := z.compress fault adKbytes4 (handed buffer (requestRecords r))
    let total := (requestRecords r).length % 2 ^ 16
    (Accepts (iLen - 12) (requestPairs r) ∧ e.ret = 12 + packed.length ∧
      e.writes = placed 12 (requestRecords r) ++ copyBack 12 packed ++
        [⟨0, headBytes (sentHead r.adx.toUInt8 1 total packed.length)⟩]) ∨
    (¬ Accepts (iLen - 12) (requestPairs r) ∧ e.ret = adFailure) := by
  dsimp only
  rw [AdRtbProtocol.requestToTlv]
  have attr : AdRtbProtocol.fresh.head.attr = adProtocolBodyComp := rfl
  rcases request_pass r iLen with ⟨accepts, c, pass, pos, writes, count⟩ | ⟨refused, pass⟩
  · have length : c.pos - adProtocolHeadLen = (stream (requestRecords r)).length := by
      rw [pos, adProtocolHeadLen]
      omega
    generalize hpacked : z.compress fault adKbytes4 (handed buffer (requestRecords r)) = packed
    have short : packed.length ≤ 4096 := hpacked ▸ compress_length
    have sent := writeHead_sent r.adx.toUInt8 1 ((requestRecords r).length % 2 ^ 16) short []
      (placed 12 (requestRecords r) ++ copyBack 12 packed)
    have source : compressSource buffer adProtocolHeadLen
        (toInt32 (stream (requestRecords r)).length) (placed 12 (requestRecords r)) =
          handed buffer (requestRecords r) := rfl
    simp only [pass, if_pos attr, writes, length, count, source, hpacked]
    exact .inl ⟨accepts, congrArg Encoded.ret sent, congrArg Encoded.writes sent⟩
  · rw [pass]
    exact .inr ⟨refused, rfl⟩

/-- Every member the encoder writes is back, the kind of transaction apart. -/
structure RequestRestored (r d : AdRtbRequest) : Prop where
  adx : d.adx = r.adx
  text : ∀ t ≠ .transaction, .text t ∈ requestLayout.map Prod.snd → d.text t = r.text t
  list : ∀ l, .list l ∈ requestLayout.map Prod.snd → d.list l = (r.list l).filter (· ≠ [])

/-- Encoding with a fresh object and decoding the packet, in any memory that holds it. -/
def RoundTrip (z : Zlib) (r : AdRtbRequest) (iLen : Int) : Prop :=
  ∀ (fault : ZlibFault) (buffer : Memory),
    let e := AdRtbProtocol.fresh.requestToTlv z fault r buffer iLen
    0 < e.ret → ∀ (p : AdRtbProtocol) (now : Time) (m : Memory),
      AgreeBelow e.ret (replay buffer e.writes) m →
        let d := p.tlvToRequest z fault now m e.ret
        d.ret = some adSuccess ∧ RequestRestored r d.value

/-- The members written under a key the reader knows. -/
def knownLayout : Layout RequestText RequestList :=
  requestLayout.filter fun e => e.2 ≠ .list .crowdCategory

/-- The members a reader keeps: the kind of transaction is replaced. -/
def keptLayout : Layout RequestText RequestList :=
  knownLayout.filter fun e => e.2 ≠ .text .transaction

theorem knownLayout_agree :
    (∀ e ∈ knownLayout, requestTable e.1 = some e.2) ∧ (knownLayout.map Prod.snd).Nodup := by
  decide

theorem keptLayout_once : (keptLayout.map Prod.snd).Nodup := by decide

theorem requestLayout_split :
    requestLayout.Perm
      ((253, .list .crowdCategory) :: (240, .text .transaction) :: keptLayout) := by
  decide

/-- No crowd category is written. -/
def NoCrowd (r : AdRtbRequest) : Prop := ∀ v ∈ r.list .crowdCategory, v = []

instance (r : AdRtbRequest) : Decidable (NoCrowd r) :=
  inferInstanceAs (Decidable (∀ v ∈ r.list .crowdCategory, v = []))

theorem mem_keptLayout {s : Slot RequestText RequestList} :
    s ∈ keptLayout.map Prod.snd ↔ s ∈ requestLayout.map Prod.snd ∧
      s ≠ .list .crowdCategory ∧ s ≠ .text .transaction := by
  simp only [keptLayout, knownLayout, List.mem_map, List.mem_filter, decide_eq_true_eq]
  constructor
  · rintro ⟨e, ⟨⟨he, crowd⟩, transaction⟩, rfl⟩
    exact ⟨⟨e, he, rfl⟩, crowd, transaction⟩
  · rintro ⟨⟨e, he, rfl⟩, crowd, transaction⟩
    exact ⟨e, ⟨⟨he, crowd⟩, transaction⟩, rfl⟩

/-- Without a crowd category, only members with a known key are written. -/
theorem present_known {r : AdRtbRequest} (crowd : NoCrowd r) :
    present (requestPairs r) = present (pairs knownLayout r.toMessage) := by
  rw [requestPairs, knownLayout]
  induction requestLayout with
  | nil => rfl
  | cons e layout ih =>
    rw [pairs_cons, present_append, ih]
    by_cases slot : e.2 = .list .crowdCategory
    · have nothing : present ((r.toMessage.values e.2).map (e.1, ·)) = [] := by
        rw [present_map_values, slot, List.map_eq_nil_iff, List.filter_eq_nil_iff]
        intro v hv
        simpa using crowd v hv
      rw [nothing, List.filter_cons_of_neg (by simpa using slot), List.nil_append]
    · rw [List.filter_cons_of_pos (by simpa using slot), pairs_cons, present_append]

/-- What comes of an accepted request, with the exchange as it fits its byte. -/
theorem request_trip_byte {r : AdRtbRequest}
    (positive : 0 < (AdRtbProtocol.fresh.requestToTlv z fault r buffer iLen).ret)
    (p : AdRtbProtocol) (now : Time) {m : Memory}
    (agree : AgreeBelow (AdRtbProtocol.fresh.requestToTlv z fault r buffer iLen).ret
      (replay buffer (AdRtbProtocol.fresh.requestToTlv z fault r buffer iLen).writes) m) :
    let packed := z.compress fault adKbytes4 (handed buffer (requestRecords r))
    let w := unpackedWalk z fault requestTable packed ((requestRecords r).length % 2 ^ 16)
    let d := p.tlvToRequest z fault now m
      (AdRtbProtocol.fresh.requestToTlv z fault r buffer iLen).ret
    Accepts (iLen - 12) (requestPairs r) ∧
      (w.returned = true → d.ret = some adSuccess ∧
        d.value = received now r.adx.toUInt8.toUInt32 w.message) ∧
      (w.returned = false → d.ret = none) := by
  rcases request_encoded z fault r buffer iLen with
    ⟨accepts, ret, writes⟩ | ⟨_, ret⟩
  · refine ⟨accepts, ?_⟩
    rw [ret] at agree ⊢
    rw [writes] at agree
    have holds := (holds_after buffer (placed 12 (requestRecords r)) _ _).agree agree
    exact request_decoded z fault p now holds (Nat.mod_lt _ (Nat.two_pow_pos 16)) compress_length
  · rw [ret] at positive
    exact absurd positive (by decide)

theorem request_trip {r : AdRtbRequest} (high : r.adx ≤ 255)
    (positive : 0 < (AdRtbProtocol.fresh.requestToTlv z fault r buffer iLen).ret)
    (p : AdRtbProtocol) (now : Time) {m : Memory}
    (agree : AgreeBelow (AdRtbProtocol.fresh.requestToTlv z fault r buffer iLen).ret
      (replay buffer (AdRtbProtocol.fresh.requestToTlv z fault r buffer iLen).writes) m) :
    let packed := z.compress fault adKbytes4 (handed buffer (requestRecords r))
    let w := unpackedWalk z fault requestTable packed ((requestRecords r).length % 2 ^ 16)
    let d := p.tlvToRequest z fault now m
      (AdRtbProtocol.fresh.requestToTlv z fault r buffer iLen).ret
    Accepts (iLen - 12) (requestPairs r) ∧
      (w.returned = true → d.ret = some adSuccess ∧ d.value = received now r.adx w.message) ∧
      (w.returned = false → d.ret = none) := by
  have trip := request_trip_byte positive p now agree
  rwa [adx_byte high] at trip

theorem received_text (now : Time) (adx : UInt32) (m : Message RequestText RequestList)
    {t : RequestText} (other : t ≠ .transaction) : (received now adx m).text t = m.text t :=
  Function.update_of_ne other _ _

/-- A restored request has every kept member of the loop's message. -/
theorem kept_of_restored {r : AdRtbRequest} {now : Time} {adx : UInt32}
    {m : Message RequestText RequestList} (restored : RequestRestored r (received now adx m)) :
    Restored keptLayout r.toMessage m := by
  intro s hs
  obtain ⟨written, _, transaction⟩ := mem_keptLayout.mp hs
  cases s with
  | text t =>
    have other : t ≠ .transaction := fun same => transaction (congrArg _ same)
    simp only [Message.values, Message.trim]
    rw [← received_text now adx m other, restored.text t other written]
  | list l => exact restored.list l written

/-- A crowd category is never assigned to: no key leads there. -/
theorem crowd_unassigned (fault : ZlibFault) (packed : Bytes) (total : Nat) :
    (unpackedWalk z fault requestTable packed total).message.list .crowdCategory = [] := by
  refine walk_invariant (fun msg : Message RequestText RequestList =>
    msg.values (.list .crowdCategory) = []) ?_ _ _ _ rfl
  rintro msg slot p n ⟨k, known⟩ _ kept
  have apart : slot ≠ .list .crowdCategory := by
    rintro rfl
    unfold requestTable at known
    split at known <;> cases known
  exact (values_assign_other apart.symm _ msg).trans kept

theorem harmless_request {c : UInt8} (h : c = 0 ∨ c = 1) : Harmless requestTable c := by
  rcases h with rfl | rfl
  · exact ⟨rfl, by decide⟩
  · exact ⟨rfl, by decide⟩

/-- The members of a request are the kept ones and its transaction. -/
theorem present_split {r : AdRtbRequest} (crowd : NoCrowd r) :
    (present (requestPairs r)).Perm
      (present [(240, r.text .transaction)] ++ present (pairs keptLayout r.toMessage)) := by
  have split := (requestLayout_split.flatMap_right
    fun e => (r.toMessage.values e.2).map (e.1, ·)).filter fun kv => decide (kv.2 ≠ [])
  have nothing : present ((r.list .crowdCategory).map ((253 : UInt8), ·)) = [] := by
    rw [present_map_values, List.map_eq_nil_iff, List.filter_eq_nil_iff]
    intro v hv
    simpa using crowd v hv
  rw [List.flatMap_cons, List.flatMap_cons, List.filter_append, List.filter_append] at split
  refine split.trans (List.Perm.of_eq ?_)
  exact congrArg (· ++ (present [(240, r.text .transaction)] ++
    present (pairs keptLayout r.toMessage))) nothing

theorem flow_kept (r : AdRtbRequest) : (136, r.text .flow) ∈ pairs keptLayout r.toMessage := by
  have first : ((136 : UInt8), Slot.text RequestText.flow) ∈ keptLayout := by decide
  exact List.mem_flatMap.mpr ⟨_, first, by simp [Message.values]⟩

theorem mem_requestRecords {r : AdRtbRequest} (crowd : NoCrowd r) {kv : UInt8 × Bytes}
    (h : kv ∈ requestRecords r) :
    kv = (240, r.text .transaction) ∨ kv ∈ present (pairs keptLayout r.toMessage) := by
  rcases List.mem_append.mp h with flow | rest
  · have first : kv = (136, r.text .flow) := List.mem_singleton.mp (List.mem_filter.mp flow).1
    subst first
    exact .inr (List.mem_filter.mpr ⟨flow_kept r, (List.mem_filter.mp flow).2⟩)
  · rcases List.mem_append.mp ((present_split crowd).mem_iff.mp rest) with first | kept
    · exact .inl (List.mem_singleton.mp (List.mem_filter.mp first).1)
    · exact .inr kept

/-- Besides its transaction, a request takes at most twice what a reader keeps. -/
theorem stream_le_kept {r : AdRtbRequest} (crowd : NoCrowd r) :
    (stream (requestRecords r)).length ≤
      2 * (stream (present (pairs keptLayout r.toMessage))).length +
        (5 + (r.text .transaction).length) := by
  have rest := stream_length_perm (present_split crowd)
  rw [stream_append, List.length_append] at rest
  have last : (stream (present [(240, r.text .transaction)])).length ≤
      5 + (r.text .transaction).length := by
    by_cases value : r.text .transaction = []
    · rw [value, present_cons_empty]
      simp
    · rw [present_cons_value value]
      simp
  rw [requestRecords_eq]
  by_cases flow : r.text .flow = []
  · rw [flow, present_cons_empty]
    omega
  · have kept : (136, r.text .flow) ∈ present (pairs keptLayout r.toMessage) :=
      List.mem_filter.mpr ⟨flow_kept r, by simpa using flow⟩
    have first := stream_length_value kept
    rw [present_cons_value flow, stream_cons, List.length_append, record_length]
    omega

/-- Calls that fail and leave a record of their own behind. -/
def loudFault : ZlibFault := ⟨[], record (102, [1]), 6, fun _ => 0⟩

/-- A body that is lost may as well come back as another bid. -/
theorem loud_body {packed : Bytes} {total : Nat}
    (fails : ∀ bs, z.inflate packed = some bs → adKbytes4 < bs.length) (announced : 0 < total) :
    (unpackedWalk z loudFault requestTable packed total).message.text .bidID = [1] := by
  obtain ⟨extra, rfl⟩ := Nat.exists_eq_add_of_le announced
  have read := readBytes_put_self loudFault.scratch ⟨0, record (102, [1])⟩
  rw [unpackedWalk, uncompress_failed fails]
  have loop : (walk requestTable .scratch (put loudFault.scratch ⟨0, record (102, [1])⟩) 0 6
      (1 + extra) 0 Message.empty).message = load requestTable Message.empty [(102, [1])] :=
    (walk_stream [(102, [1])] extra read le_rfl (by decide) (by decide) (.inr rfl)).2
  exact congrArg (fun msg : Message RequestText RequestList => msg.text .bidID) loop

/-- Whatever zlib leaves behind, an accepted request returns a packet and comes back. -/
theorem trip_returns {r : AdRtbRequest} (high : r.adx ≤ 255) (trip : RoundTrip z r iLen)
    (accepts : Accepts (iLen - 12) (requestPairs r)) (fault : ZlibFault) (buffer : Memory) :
    let packed := z.compress fault adKbytes4 (handed buffer (requestRecords r))
    let w := unpackedWalk z fault requestTable packed ((requestRecords r).length % 2 ^ 16)
    w.returned = true ∧ RequestRestored r (received ⟨0, 0⟩ r.adx w.message) := by
  have positive : 0 < (AdRtbProtocol.fresh.requestToTlv z fault r buffer iLen).ret := by
    rcases request_encoded z fault r buffer iLen with
      ⟨_, ret, _⟩ | ⟨refused, _⟩
    · omega
    · exact absurd accepts refused
  obtain ⟨_, done, thrown⟩ := request_trip high positive AdRtbProtocol.fresh ⟨0, 0⟩
    (fun _ _ _ => rfl)
  obtain ⟨success, restored⟩ :=
    trip fault buffer positive AdRtbProtocol.fresh ⟨0, 0⟩ _ (fun _ _ _ => rfl)
  dsimp only
  cases ended : (unpackedWalk z fault requestTable
      (z.compress fault adKbytes4 (handed buffer (requestRecords r)))
      ((requestRecords r).length % 2 ^ 16)).returned with
  | false =>
    rw [thrown ended] at success
    cases success
  | true => exact ⟨rfl, (done ended).2 ▸ restored⟩

/-- A request whose kept members are all empty has one record at most. -/
theorem requestRecords_single {r : AdRtbRequest} (crowd : NoCrowd r)
    (nothing : present (pairs keptLayout r.toMessage) = []) : (requestRecords r).length ≤ 1 := by
  have flow : r.text .flow = [] := by
    by_contra value
    have kept : (136, r.text .flow) ∈ present (pairs keptLayout r.toMessage) :=
      List.mem_filter.mpr ⟨flow_kept r, by simpa using value⟩
    rw [nothing] at kept
    cases kept
  rw [requestRecords_eq, flow, present_cons_empty, (present_split crowd).length_eq, nothing,
    List.append_nil]
  exact List.length_filter_le _ _

/-- When zlib fails, the receiver may find one bid or another: not both are right. -/
theorem request_lost {r : AdRtbRequest} (buffer : Memory) (high : r.adx ≤ 255)
    (trip : RoundTrip z r iLen)
    (accepts : Accepts (iLen - 12) (requestPairs r)) (crowd : NoCrowd r) :
    ¬ (adKbytes4 < (z.deflate (handed buffer (requestRecords r))).length ∨
      adKbytes4 < (handed buffer (requestRecords r)).length) := by
  intro fails
  have quiet := (trip_returns high trip accepts (quietFault 0) buffer).2
  rw [lost_body _ fails] at quiet
  have nothing := nothing_restored (kept_of_restored quiet)
  have count := requestRecords_single crowd nothing
  have some_record : requestRecords r ≠ [] := fun nil => not_lost_of_nil nil fails
  have positive : 0 < (requestRecords r).length % 2 ^ 16 := by
    have := List.length_pos_of_ne_nil some_record
    omega
  have loud := (trip_returns high trip accepts loudFault buffer).2
  have first := quiet.text .bidID (by decide) (by decide)
  have second := loud.text .bidID (by decide) (by decide)
  rw [received_text _ _ _ (by decide)] at first second
  rw [loud_body (packed_fails rfl fails) positive, ← first] at second
  cases second

theorem request_fits_of_trip {r : AdRtbRequest} (high : r.adx ≤ 255)
    (transaction : (r.text .transaction).length < 2 ^ 31) (trip : RoundTrip z r iLen)
    (accepts : Accepts (iLen - 12) (requestPairs r)) :
    NoCrowd r ∧ BodyFits z (requestRecords r) := by
  have back := fun c => trip_returns high trip accepts (quietFault c) fun _ => 0
  have crowd : NoCrowd r := by
    intro v hv
    have lists := (back 0).2.list .crowdCategory (by decide)
    rw [received, crowd_unassigned, eq_comm, List.filter_eq_nil_iff] at lists
    simpa using lists v hv
  refine ⟨crowd, ?_⟩
  have fails := request_lost (fun _ => 0) high trip accepts crowd
  rw [not_or, not_lt, not_lt] at fails
  have packs : ∀ c, z.compress (quietFault c) adKbytes4
      (handed (fun _ => 0) (requestRecords r)) =
        z.deflate (handed (fun _ => 0) (requestRecords r)) := fun c => compress_ok fails.1
  simp only [packs] at back
  have restored := fun c => kept_of_restored (back c).2
  have short : ∀ kv ∈ requestRecords r, kv.2.length < 2 ^ 31 := by
    intro kv h
    rcases mem_requestRecords crowd h with rfl | kept
    · exact transaction
    · exact restored_short (restored 0) (walk_shortValues _ _ shortValues_empty) kv kept
  have known : ∀ kv ∈ requestRecords r, (requestTable kv.1).isSome := by
    intro kv h
    rcases mem_requestRecords crowd h with rfl | kept
    · rfl
    · obtain ⟨s, hs, _⟩ := mem_present_pairs kept
      rw [knownLayout_agree.1 _ (List.mem_filter.mp hs).1]
      rfl
  have kept := cut_body_bound keptLayout_once fails.2 (handed_starts fails.2).1 known short
    (c := 0) (d := 1) (by decide) (harmless_request (.inl rfl))
    (harmless_request (.inr rfl)) (fun c _ => ⟨(back c).1, restored c⟩)
  have bound := stream_le_kept crowd
  have limit := fails.2
  simp only [adKbytes4] at limit
  exact fits_of_cut fails.1 fails.2 (by omega)

theorem requestRecords_count {r : AdRtbRequest} (body : (stream (requestRecords r)).length ≤ 4096) :
    (requestRecords r).length % 2 ^ 16 = (requestRecords r).length := by
  have bound := stream_length_count (requestRecords r)
  omega

/-- A request whose body fits is packed whole, and the loop takes it apart record by record. -/
theorem request_trip_body {r : AdRtbRequest}
    (positive : 0 < (AdRtbProtocol.fresh.requestToTlv z fault r buffer iLen).ret)
    (fits : BodyFits z (requestRecords r)) (p : AdRtbProtocol) (now : Time) {m : Memory}
    (agree : AgreeBelow (AdRtbProtocol.fresh.requestToTlv z fault r buffer iLen).ret
      (replay buffer (AdRtbProtocol.fresh.requestToTlv z fault r buffer iLen).writes) m) :
    let d := p.tlvToRequest z fault now m
      (AdRtbProtocol.fresh.requestToTlv z fault r buffer iLen).ret
    d.ret = some adSuccess ∧ d.value = received now r.adx.toUInt8.toUInt32
      (load requestTable Message.empty (requestRecords r)) := by
  obtain ⟨_, done, _⟩ := request_trip_byte positive p now agree
  obtain ⟨body, packs⟩ := fits
  simp only [adKbytes4] at body
  have whole : handed buffer (requestRecords r) = stream (requestRecords r) :=
    handed_eq buffer (by omega)
  rw [whole, compress_ok packs, requestRecords_count body] at done
  obtain ⟨returned, message⟩ := unpackedWalk_stream z fault requestTable body
  rw [message] at done
  exact done returned

/-- What the reader makes of the records: the flow is assigned twice, to the same value. -/
theorem load_requestRecords {r : AdRtbRequest} (crowd : NoCrowd r) :
    (∀ t, (load requestTable Message.empty (requestRecords r)).text t =
      if .text t ∈ knownLayout.map Prod.snd then r.text t else []) ∧
    (∀ l, (load requestTable Message.empty (requestRecords r)).list l =
      if .list l ∈ knownLayout.map Prod.snd then (r.list l).filter (· ≠ []) else []) := by
  have first : requestRecords r = present [(136, r.text .flow)] ++
      present (pairs knownLayout r.toMessage) := by
    rw [requestRecords, present_known crowd, flowRecord]
  have flow : load requestTable Message.empty (present [(136, r.text .flow)]) =
      ⟨Function.update (fun _ => []) .flow (r.text .flow), fun _ => []⟩ :=
    load_slot (k := 136) (s := .text .flow) rfl Message.empty r.toMessage
      (fun _ _ => .inl rfl)
  have cases : ∀ t, Function.update (fun _ => []) .flow (r.text .flow) t = [] ∨
      Function.update (fun _ => []) .flow (r.text .flow) t = r.text t := by
    intro t
    by_cases same : t = .flow
    · subst same
      exact .inr (Function.update_self _ _ _)
    · exact .inl (Function.update_of_ne same _ _)
  rw [first, load_append, flow]
  obtain ⟨texts, lists⟩ := load_layout r.toMessage knownLayout knownLayout_agree.1
    knownLayout_agree.2 ⟨Function.update (fun _ => []) .flow (r.text .flow), fun _ => []⟩
    (fun t _ => cases t)
  refine ⟨fun t => ?_, lists⟩
  rw [texts t]
  by_cases written : .text t ∈ knownLayout.map Prod.snd
  · rw [if_pos written, if_pos written]
  · rw [if_neg written, if_neg written]
    have other : t ≠ .flow := by
      rintro rfl
      exact written (by decide)
    exact (cases t).elim id fun _ => Function.update_of_ne other (r.text .flow) fun _ => []

theorem request_trip_of_fits {r : AdRtbRequest} (high : r.adx ≤ 255)
    (fits : Accepts (iLen - 12) (requestPairs r) →
      NoCrowd r ∧ BodyFits z (requestRecords r)) : RoundTrip z r iLen := by
  intro fault buffer e positive p now m agree
  obtain ⟨crowd, body⟩ := fits (request_trip_byte positive p now agree).1
  obtain ⟨success, value⟩ := request_trip_body positive body p now agree
  obtain ⟨texts, lists⟩ := load_requestRecords crowd
  have knownSlot : ∀ s : Slot RequestText RequestList, s ∈ requestLayout.map Prod.snd →
      s ≠ .list .crowdCategory → s ∈ knownLayout.map Prod.snd := by
    intro s hs other
    obtain ⟨e, he, rfl⟩ := List.mem_map.mp hs
    exact List.mem_map_of_mem (List.mem_filter.mpr ⟨he, by simpa using other⟩)
  refine ⟨success, ?_⟩
  rw [value, adx_byte high]
  refine ⟨rfl, fun t other written => ?_, fun l written => ?_⟩
  · rw [received_text _ _ _ other, texts t, if_pos (knownSlot _ written nofun)]
  · change (load requestTable Message.empty (requestRecords r)).list l = _
    rw [lists l]
    by_cases crowded : l = .crowdCategory
    · subst crowded
      rw [if_neg (by decide), eq_comm, List.filter_eq_nil_iff]
      simpa [NoCrowd] using crowd
    · rw [if_pos (knownSlot _ written fun eq => crowded (Slot.list.inj eq))]

/-- A request that passes the space checks comes back when it has no crowd category and both
the body and the packed body fit; nothing weaker will do, unless the transaction alone has
two gigabytes. -/
theorem request_round_trip_iff (z : Zlib) (r : AdRtbRequest) (iLen : Int) (high : r.adx ≤ 255) :
    ((Accepts (iLen - 12) (requestPairs r) → NoCrowd r ∧ BodyFits z (requestRecords r)) →
      RoundTrip z r iLen) ∧
    ((r.text .transaction).length < 2 ^ 31 → RoundTrip z r iLen →
      Accepts (iLen - 12) (requestPairs r) → NoCrowd r ∧ BodyFits z (requestRecords r)) :=
  ⟨request_trip_of_fits high, request_fits_of_trip high⟩

/-- A request of exchange 1 with a bid and some crowd categories. -/
def crowdRequest (crowd : List Bytes) : AdRtbRequest where
  text
    | .bidID => ascii "b1"
    | _ => []
  list
    | .crowdCategory => crowd
    | _ => []
  adx := 1
  time := ⟨0, 0⟩

theorem plain_request_restored : RoundTrip storedZlib (crowdRequest []) 8192 :=
  (request_round_trip_iff storedZlib (crowdRequest []) 8192 (by decide)).1 fun _ =>
    ⟨by decide, by decide, by decide⟩

/-- One crowd category is written under key 253, which no reader knows. -/
theorem crowd_request_lost : ¬ RoundTrip storedZlib (crowdRequest [ascii "c1"]) 8192 := by
  intro trip
  have crowd := (request_fits_of_trip (by decide) (by decide) trip (by decide)).1
  exact absurd crowd (by decide)

end RequestRoundTrip
