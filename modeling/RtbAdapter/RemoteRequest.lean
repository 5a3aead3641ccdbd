import RtbAdapter.RequestRoundTrip

/-!
# What a remote engine sees of a request

Of a request whose body fits, a remote engine gets every text but the area, every
list without its empty entries but the crowd categories, the exchange as far as it
fits one byte, and a clock that starts anew.
-/

namespace RemoteRequest

open ByteWords ByteMemory KeyValueStream RtbBase ZlibCalls NetProtocol RecordWriter RecordWalk
open Packets CodecRoundTrip RequestRoundTrip

/-- A request as a remote engine sees it. -/
def remote (now : Time) (r : AdRtbRequest) : AdRtbRequest :=
  received now r.adx.toUInt8.toUInt32
    ⟨fun text => if text = .area then [] else r.text text,
      fun list => if list = .crowdCategory then [] else (r.list list).filter (· ≠ [])⟩

variable {r : AdRtbRequest} {now : Time}

@[simp] theorem remote_adx : (remote now r).adx = r.adx.toUInt8.toUInt32 := rfl

@[simp] theorem remote_time : (remote now r).time = now := rfl

@[simp] theorem remote_area : (remote now r).text .area = [] := rfl

theorem remote_text (text : RequestText) (area : text ≠ .area) (transaction : text ≠ .transaction) :
    (remote now r).text text = r.text text := by
  rw [remote, received_text _ _ _ transaction]
  exact if_neg area

@[simp] theorem remote_crowd : (remote now r).list .crowdCategory = [] := rfl

theorem remote_list (list : RequestList) (crowd : list ≠ .crowdCategory) :
    (remote now r).list list = (r.list list).filter (· ≠ []) := if_neg crowd

/-- A request without its crowd categories. -/
def uncrowded (r : AdRtbRequest) : AdRtbRequest :=
  { r with list := Function.update r.list .crowdCategory [] }

theorem uncrowded_noCrowd (r : AdRtbRequest) : NoCrowd (uncrowded r) := by
  intro v listed
  simp [uncrowded] at listed

/-- The reader skips the crowd categories. -/
theorem load_uncrowded (m : Message RequestText RequestList) :
    load requestTable m (requestRecords r) =
      load requestTable m (requestRecords (uncrowded r)) := by
  have same : ∀ (layout : Layout RequestText RequestList) (m : Message RequestText RequestList),
      (∀ e ∈ layout, e.2 = .list .crowdCategory → requestTable e.1 = none) →
      load requestTable m (present (pairs layout r.toMessage)) =
        load requestTable m (present (pairs layout (uncrowded r).toMessage)) := by
    intro layout
    induction layout with
    | nil => exact fun _ _ => rfl
    | cons e layout ih =>
      intro m skipped
      obtain ⟨here, skipped⟩ := List.forall_mem_cons.mp skipped
      rw [pairs_cons, pairs_cons, present_append, present_append, load_append, load_append,
        ih _ skipped]
      congr 1
      by_cases crowd : e.2 = .list .crowdCategory
      · have unknown : ∀ values : List Bytes,
            load requestTable m (present (values.map (e.1, ·))) = m := by
          intro values
          refine load_all_unknown (fun kv inside => ?_) m
          rw [present_map_values] at inside
          obtain ⟨_, _, rfl⟩ := List.mem_map.mp inside
          exact here crowd
        rw [unknown, unknown]
      · have values : (uncrowded r).toMessage.values e.2 = r.toMessage.values e.2 := by
          cases slot : e.2 with
          | text t => rfl
          | list l =>
            have other : l ≠ .crowdCategory := fun same => crowd (by rw [slot, same])
            exact Function.update_of_ne other _ _
        rw [values]
  rw [requestRecords, requestRecords, load_append, load_append]
  exact same requestLayout _ (by decide)

/-- Decoding the packet of a request gives what a remote engine sees. -/
theorem remote_decoded {z : Zlib} {fault : ZlibFault} {buffer : Memory} {iLen : Int}
    (positive : 0 < (AdRtbProtocol.fresh.requestToTlv z fault r buffer iLen).ret)
    (fits : BodyFits z (requestRecords r)) (p : AdRtbProtocol) (now : Time) {m : Memory}
    (agree : AgreeBelow (AdRtbProtocol.fresh.requestToTlv z fault r buffer iLen).ret
      (replay buffer (AdRtbProtocol.fresh.requestToTlv z fault r buffer iLen).writes) m) :
    let d := p.tlvToRequest z fault now m
      (AdRtbProtocol.fresh.requestToTlv z fault r buffer iLen).ret
    d.ret = some adSuccess ∧ d.value = remote now r := by
  obtain ⟨success, value⟩ := request_trip_body positive fits p now agree
  refine ⟨success, value.trans ?_⟩
  rw [load_uncrowded, remote]
  obtain ⟨texts, lists⟩ := load_requestRecords (uncrowded_noCrowd r)
  generalize load requestTable Message.empty (requestRecords (uncrowded r)) = loaded at *
  obtain ⟨text, list⟩ := loaded
  congr 2
  · funext t
    have loaded : text t = if .text t ∈ knownLayout.map Prod.snd then r.text t else [] := texts t
    rw [loaded]
    cases t <;> rfl
  · funext l
    have loaded : list l = if .list l ∈ knownLayout.map Prod.snd
        then ((uncrowded r).list l).filter (· ≠ []) else [] := lists l
    rw [loaded]
    cases l <;> rfl

end RemoteRequest
