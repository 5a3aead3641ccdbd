import RtbAdapter.LastFilter
import RtbAdapter.RemoteMatch

/-!
# Local and remote bidding

A local and a remote engine bid alike on a request when nothing is lost that a
filter looks at. When something is lost they differ on some order, unless no order
at all could be for the request on either side.
-/

namespace RemoteBidding

open ByteWords ByteMemory KeyValueStream CText PlanningUnit RtbBase FilterTables FilterMark
open RtbFilters LoadedOrders MatchedOrders LastFilter RemoteRequest RemoteMatch Std
open KeywordTree KeywordMatch
open ZlibCalls NetProtocol RecordWriter Packets CodecRoundTrip RequestRoundTrip

/-- Both engines find the same orders, whatever is loaded. -/
def Agrees (r : AdRtbRequest) (world : MatchWorld) : Prop :=
  ∀ loaded descriptions infos,
    candidates loaded descriptions { world with infos } (remote world.now r) =
      candidates loaded descriptions { world with infos } r

variable {r : AdRtbRequest} {world : MatchWorld}

theorem not_late_remote : ¬ Late (remote world.now r) world := by
  rintro ⟨_, missed⟩
  rw [checkLife_remote] at missed
  exact Bool.false_ne_true missed

variable {u : AdPlanningUnit} {clock : LocalTime}

/-- An order made one of a kind, with keywords. -/
def ofKind (nice : UInt32) (keyWord : List AdMarkNode) (u : AdPlanningUnit) : AdPlanningUnit :=
  { u with order := { u.order with nice }, keyWord }

/-- The kind and the keywords of an order matter to the last filter only. -/
theorem passes_ofKind (nice : UInt32) (keyWord : List AdMarkNode) :
    Passes (ofKind nice keyWord u) clock r ↔ Passes u clock r := by
  constructor
  · rintro ⟨⟨time, adx, pid, area, size, agent, operator, device, connect⟩, parameter, ban⟩
    exact ⟨⟨time, adx, pid, area, size, agent, operator, device, connect⟩, parameter, ban⟩
  · rintro ⟨⟨time, adx, pid, area, size, agent, operator, device, connect⟩, parameter, ban⟩
    exact ⟨⟨time, adx, pid, area, size, agent, operator, device, connect⟩, parameter, ban⟩

/-- The real time table holds nothing. -/
def quiet (world : MatchWorld) : MatchWorld := { world with infos := fun _ => none }

/-- Engines that agree find the same orders to be for the request. -/
theorem Agrees.passes (agrees : Agrees r world) (u : AdPlanningUnit) :
    Passes u world.clock (remote world.now r) ↔ Passes u world.clock r ∧ ¬ Late r world := by
  have same : candidates (single (ofKind adOrderBase [] u)) [] (quiet world) (remote world.now r) =
      candidates (single (ofKind adOrderBase [] u)) [] (quiet world) r := agrees _ _ _
  have there : Passes (ofKind adOrderBase [] u) (quiet world).clock (remote world.now r) ↔
      Passes u world.clock (remote world.now r) := passes_ofKind _ _
  have here : Passes (ofKind adOrderBase [] u) (quiet world).clock r ↔ Passes u world.clock r :=
    passes_ofKind _ _
  have late : Late r (quiet world) ↔ Late r world := Iff.rfl
  rw [← there, ← here, ← late]
  by_cases found : Passes (ofKind adOrderBase [] u) (quiet world).clock (remote world.now r)
  · rw [candidates_base rfl rfl found not_late_remote] at same
    refine ⟨fun _ => ?_, fun _ => found⟩
    by_contra neither
    have barren : candidates (single (ofKind adOrderBase [] u)) [] (quiet world) r = some [] := by
      by_cases missed : Late r (quiet world)
      · exact candidates_barren (.inl missed) _ _
      · exact candidates_single_none rfl fun passes => neither ⟨passes, missed⟩
    rw [barren] at same
    simp at same
  · rw [candidates_single_none rfl found] at same
    refine ⟨fun passes => absurd passes found, fun ⟨passes, inTime⟩ => ?_⟩
    rw [candidates_base rfl rfl passes inTime] at same
    simp at same

theorem adExchangeKey_injective : Function.Injective adExchangeKey := by
  intro m n same
  have short : ∀ n, (decimalUInt n).length ≤ 32 - 1 := fun n =>
    (decimalUInt_length n).trans (by decide)
  rw [adExchangeKey, adExchangeKey, snprintf, snprintf, List.take_of_length_le (short m),
    List.take_of_length_le (short n)] at same
  exact decimalUInt_injective same

theorem adx_ne_zero (passes : Passes u clock r) : r.adx ≠ 0 := by
  obtain ⟨key, asked, filed⟩ := got_eq_true.mp passes.asked.adExchange
  rw [List.mem_singleton.mp asked, adExchangeKeys, whenPushed] at filed
  split at filed
  · obtain ⟨pid, listed, same⟩ := List.mem_map.mp filed
    have other := of_decide_eq_true (List.mem_filter.mp listed).2
    rwa [adExchangeKey_injective same] at other
  · exact absurd filed List.not_mem_nil

theorem passes_push (passes : Passes u clock r) : u.time.push := by
  obtain ⟨_, _, filed⟩ := got_eq_true.mp passes.asked.adExchange
  rw [adExchangeKeys, whenPushed] at filed
  by_contra silent
  rw [if_neg silent] at filed
  exact List.not_mem_nil filed

/-- An order that is let onto one exchange, everywhere on it. -/
def onExchange (adx : UInt32) (u : AdPlanningUnit) : AdPlanningUnit :=
  { u with pidInfo := [⟨adx, adPidModeAll, []⟩] }

theorem passes_onExchange (passes : Passes u clock r) : Passes (onExchange r.adx u) clock r := by
  have push : u.time.push = true := passes_push passes
  have other := adx_ne_zero passes
  obtain ⟨⟨time, _, _, area, size, agent, operator, device, connect⟩, parameter, ban⟩ := passes
  refine ⟨⟨time, ?_, ?_, area, size, agent, operator, device, connect⟩, parameter, ban⟩
  · refine got_eq_true.mpr ⟨adExchangeKey r.adx, List.mem_singleton_self _, ?_⟩
    simp [adExchangeKeys, whenPushed, onExchange, push, other]
  · refine got_eq_true.mpr ⟨_, List.mem_cons_self, ?_⟩
    simp [pidKeys, whenPushed, onExchange, push, pidKeysOf]

/-- The exchange must reach a remote engine. -/
theorem Agrees.adx (agrees : Agrees r world) (inTime : ¬ Late r world)
    (passes : Passes u world.clock r) : r.adx ≤ 255 := by
  have there := (agrees.passes _).mpr ⟨passes_onExchange passes, inTime⟩
  obtain ⟨key, asked, filed⟩ := got_eq_true.mp there.asked.adExchange
  rw [List.mem_singleton.mp asked, adExchangeKeys, whenPushed] at filed
  split at filed
  · obtain ⟨pid, listed, same⟩ := List.mem_map.mp filed
    obtain rfl : pid = ⟨r.adx, adPidModeAll, []⟩ :=
      List.mem_singleton.mp (List.mem_of_mem_filter listed)
    have byte : r.adx = r.adx.toUInt8.toUInt32 := adExchangeKey_injective same
    rw [byte, UInt32.le_iff_toNat_le]
    have bound := r.adx.toUInt8.toNat_lt
    simp only [UInt8.toNat_toUInt32]
    change _ ≤ 255
    omega
  · exact absurd filed List.not_mem_nil

/-- There must be no area to lose. -/
theorem Agrees.area (agrees : Agrees r world) (inTime : ¬ Late r world)
    (passes : Passes u world.clock r) : r.text .area = [] := by
  have push : u.time.push = true := passes_push passes
  have moved : ∀ (area : Bytes) (r : AdRtbRequest), area ∈ areaAsks r →
      Passes u world.clock r → Passes { u with area := [area] } world.clock r := by
    rintro area r asked
      ⟨⟨time, adx, pid, _, size, agent, operator, device, connect⟩, parameter, ban⟩
    refine ⟨⟨time, adx, pid, ?_, size, agent, operator, device, connect⟩, parameter, ban⟩
    refine got_eq_true.mpr ⟨area, asked, ?_⟩
    simp [areaKeys, whenPushed, push]
  have known : ∀ (area : Bytes) (r : AdRtbRequest),
      Passes { u with area := [area] } world.clock r → area ∈ areaAsks r := by
    intro area r passes
    obtain ⟨key, asked, filed⟩ := got_eq_true.mp passes.asked.area
    have same : key = area := by
      simpa [areaKeys, whenPushed, push] using filed
    rwa [← same]
  by_cases everywhere : r.text .area = adAreaAll
  · -- the remote engine asks for an empty area as well
    have there := moved [] (remote world.now r) (by simp [areaAsks])
      ((agrees.passes u).mpr ⟨passes, inTime⟩)
    have asked := known [] r ((agrees.passes _).mp there).1
    rw [areaAsks, everywhere] at asked
    exact absurd asked (by decide)
  · have here := moved (r.text .area) r (by simp [areaAsks]) passes
    have asked := known _ _ ((agrees.passes _).mpr ⟨here, inTime⟩)
    rw [areaAsks, remote_area] at asked
    simpa [everywhere] using asked

/-- All places that are asked for must be asked for by a remote engine. -/
theorem Agrees.pid (agrees : Agrees r world) (inTime : ¬ Late r world)
    (passes : Passes u world.clock r) :
    ∀ key ∈ pidAsks r, key ∈ pidAsks (remote world.now r) := by
  have push : u.time.push = true := passes_push passes
  have other := adx_ne_zero passes
  have low := agrees.adx inTime passes
  intro key asked
  rcases List.mem_append.mp asked with fixed | others
  · rw [pidAsks, remote_adx_of_le low, remote_text _ (by decide) (by decide)]
    exact List.mem_append_left _ fixed
  obtain ⟨site, listed, rfl⟩ := List.mem_map.mp others
  -- an order for the places of this category
  let v : AdPlanningUnit := { u with pidInfo := [⟨r.adx, adPidModeOther, [site]⟩] }
  have keys : pidKeys v = [otherKey r.adx site] := by
    simp [pidKeys, whenPushed, v, push, pidKeysOf, adPidModeOther, adPidModeAll, adPidModeFixed]
  have here : Passes v world.clock r := by
    obtain ⟨⟨time, _, _, area, size, agent, operator, device, connect⟩, parameter, ban⟩ := passes
    refine ⟨⟨time, ?_, ?_, area, size, agent, operator, device, connect⟩, parameter, ban⟩
    · refine got_eq_true.mpr ⟨adExchangeKey r.adx, List.mem_singleton_self _, ?_⟩
      simp [adExchangeKeys, whenPushed, v, push, other]
    · refine got_eq_true.mpr ⟨otherKey r.adx site, asked, ?_⟩
      rw [keys]
      exact List.mem_singleton_self _
  have there := (agrees.passes v).mpr ⟨here, inTime⟩
  obtain ⟨key, asked, filed⟩ := got_eq_true.mp there.asked.pid
  rw [keys] at filed
  obtain rfl := List.mem_singleton.mp filed
  exact asked

/-- All keys that are banned must be banned by a remote engine. -/
theorem Agrees.ban (agrees : Agrees r world) (inTime : ¬ Late r world)
    (passes : Passes u world.clock r) :
    ∀ key ∈ banAsks r, key ∈ banAsks (remote world.now r) := by
  have push : u.time.push = true := passes_push passes
  intro key asked
  by_contra lost
  -- the order, banned where the key is asked for
  let v : AdPlanningUnit :=
    { u with order := { u.order with banContent := key :: u.order.banContent } }
  have keys : banKeys v = key :: banKeys u := by
    simp [banKeys, whenPushed, v, push, creatives]
  have there : Passes v world.clock (remote world.now r) := by
    obtain ⟨⟨time, adx, pid, area, size, agent, operator, device, connect⟩, parameter, ban⟩ :=
      (agrees.passes u).mpr ⟨passes, inTime⟩
    refine ⟨⟨time, adx, pid, area, size, agent, operator, device, connect⟩, parameter, ?_⟩
    have clean : ∀ other ∈ banAsks (remote world.now r), other ∉ banKeys u := by
      intro other asked old
      have banned : got (banAsks (remote world.now r)) (banKeys u) = true :=
        got_eq_true.mpr ⟨other, asked, old⟩
      exact Bool.false_ne_true (ban.symm.trans banned)
    rw [keys, ← Bool.not_eq_true, got_eq_true]
    rintro ⟨other, asked, filed⟩
    rcases List.mem_cons.mp filed with same | old
    · exact lost (same ▸ asked)
    · exact clean other asked old
  have here := ((agrees.passes v).mp there).1
  have filed : key ∈ banKeys v := by
    rw [keys]
    exact List.mem_cons_self
  have banned : got (banAsks r) (banKeys v) = true := got_eq_true.mpr ⟨key, asked, filed⟩
  rw [here.ban] at banned
  exact Bool.false_ne_true banned

/-- A keyword of one letter is left as it is. -/
theorem filed_letter (u : AdPlanningUnit) {b : UInt8} (letter : b ≠ 42) :
    filed (single (ofKind adOrderNice [⟨adMarkPublic, [b]⟩] u)).orders =
      [⟨adMarkPublic, [b], 0⟩] := by
  have kept : adFilterMarkGetStr [b] = [b] := by
    have short : ∀ head : String, 1 < (ascii head).length → stripPrefix head [b] = [b] := by
      intro head long
      rw [stripPrefix, if_neg]
      intro start
      have bound := (List.isPrefixOf_iff_prefix.mp start).length_le
      rw [List.length_singleton] at bound
      omega
    rw [adFilterMarkGetStr, List.filter_cons_of_pos (by simpa using letter), List.filter_nil,
      short _ (by decide), short _ (by decide)]
  have keywords : keywordsOf ⟨0, ofKind adOrderNice [⟨adMarkPublic, [b]⟩] u⟩ =
      [⟨adMarkPublic, [b], 0⟩] := by
    simp [keywordsOf, ofKind, kept]
  have usable : Usable ⟨0, ofKind adOrderNice [⟨adMarkPublic, [b]⟩] u⟩ := by
    rw [Usable, keywords]
    simp
  change (if Usable _ then [] ++ keywordsOf _ else []) = _
  rw [if_pos usable, keywords, List.nil_append]

/-- Without a known user, the crowd categories must be ones that no keyword is found in. -/
theorem Agrees.crowd (agrees : Agrees r world) (inTime : ¬ Late r world)
    (passes : Passes u world.clock r) (unknown : world.user (userQuery r) = none) :
    ∀ crowd ∈ r.list .crowdCategory, Starred crowd := by
  have low := agrees.adx inTime passes
  intro crowd listed
  have looks : Looks r (quiet world) := .inr (List.ne_nil_of_mem listed)
  have blind : ¬ Looks (remote world.now r) (quiet world) := by
    rintro (known | crowded)
    · rw [userQuery_remote low] at known
      simp [quiet, unknown] at known
    · exact crowded remote_crowd
  have marks : requestMark crowd ∈ lookedMarks r (quiet world) := by
    have all : lookedMarks r (quiet world) = (r.list .crowdCategory).map requestMark := by
      rw [lookedMarks, quiet, unknown]
    rw [all]
    exact List.mem_map_of_mem listed
  -- a keyword order is not left over on the remote side
  have lost : ∀ keyWord, candidates (single (ofKind adOrderNice keyWord u)) [] (quiet world) r =
      some [] := by
    intro keyWord
    have same : candidates (single (ofKind adOrderNice keyWord u)) [] (quiet world)
        (remote world.now r) =
      candidates (single (ofKind adOrderNice keyWord u)) [] (quiet world) r :=
      agrees _ _ _
    obtain ⟨got, found, keys⟩ := candidates_blind (single (ofKind adOrderNice keyWord u)) [] blind
    rw [← same, found, Option.some.injEq, List.eq_nil_iff_forall_not_mem]
    intro b inside
    obtain ⟨here, kind⟩ := (keys b).mp inside
    obtain ⟨entry, survives, rfl⟩ := List.mem_map.mp here
    rw [((mem_survivors_single rfl entry).mp survives).1] at kind
    exact absurd (show adOrderNice = adOrderBase from kind) (by decide)
  have left : ∀ keyWord,
      survivors (single (ofKind adOrderNice keyWord u)) [] (quiet world) r =
        [(0, ⟨false, maskOf r⟩)] :=
    fun keyWord => survivors_single rfl ((passes_ofKind _ _).mpr passes)
  refine ⟨fun b inside => ?_, ?_⟩
  · by_contra letter
    -- a keyword of this one letter is found on the local side
    obtain ⟨safe, kept⟩ := candidates_looks (single (ofKind adOrderNice [⟨adMarkPublic, [b]⟩] u)) []
      looks inTime
    have filed' := filed_letter u letter
    obtain ⟨got, found, keys⟩ := kept fun crashes => by
      have bare := crashes.2.1
      rw [filed'] at bare
      simp at bare
    have chosen : 0 ∈ got := by
      refine (keys 0).mpr
        ⟨?_, .inr (.inl ⟨rfl, .inl ⟨_, marks, ⟨adMarkPublic, [b], 0⟩, ?_, ?_, ?_⟩⟩)⟩
      · rw [left]
        exact List.mem_singleton_self _
      · rw [filed']
        exact List.mem_singleton_self _
      · rw [Stands, List.map_singleton, List.singleton_infix_iff]
        exact List.mem_map_of_mem inside
      · exact ⟨rfl, rfl⟩
    rw [lost] at found
    obtain rfl := Option.some.inj found
    exact List.not_mem_nil chosen
  · by_contra long
    -- without keywords the search crashes on the local side
    obtain ⟨crashed, _⟩ := candidates_looks (single (ofKind adOrderNice [] u)) [] looks inTime
    have crash : candidates (single (ofKind adOrderNice [] u)) [] (quiet world) r = none := by
      refine crashed ⟨⟨0, ?_, rfl⟩, rfl, _, marks, Nat.not_lt.mp long⟩
      rw [left]
      exact List.mem_singleton_self _
    rw [lost] at crash
    simp at crash

/-- The engines agree exactly when nothing is lost, or no order can be for the request. -/
theorem agrees_iff :
    Agrees r world ↔
      Carried r world ∨ Barren r world ∧ Barren (remote world.now r) world := by
  constructor
  · intro agrees
    by_cases barren : Barren r world ∧ Barren (remote world.now r) world
    · exact .inr barren
    have fertile : ¬ Late r world ∧ ∃ u, Passes u world.clock r := by
      rw [not_and_or] at barren
      rcases barren with here | there
      · rw [Barren, not_or, not_forall] at here
        obtain ⟨inTime, u, passes⟩ := here
        exact ⟨inTime, u, not_not.mp passes⟩
      · rw [Barren, not_or, not_forall] at there
        obtain ⟨_, u, passes⟩ := there
        obtain ⟨here, inTime⟩ := (agrees.passes u).mp (not_not.mp passes)
        exact ⟨inTime, u, here⟩
    obtain ⟨inTime, u, passes⟩ := fertile
    exact .inl ⟨agrees.adx inTime passes, agrees.area inTime passes, agrees.pid inTime passes,
      agrees.ban inTime passes, inTime, fun unknown => agrees.crowd inTime passes unknown⟩
  · rintro (carried | ⟨here, there⟩) loaded descriptions infos
    · have carried' : Carried r { world with infos } :=
        ⟨carried.adx, carried.area, carried.pid, carried.ban, carried.inTime, carried.crowd⟩
      exact candidates_remote carried' loaded descriptions
    · have here' : Barren r { world with infos } := here
      have there' : Barren (remote world.now r) { world with infos } := there
      rw [candidates_barren here', candidates_barren there']

/-- What a remote engine decodes from the packet of a request gets the same orders as the
request exactly when nothing is lost, or no order can be for it. -/
theorem remote_bidding_iff {z : Zlib} {fault : ZlibFault} {buffer : Memory} {iLen : Int}
    (positive : 0 < (AdRtbProtocol.fresh.requestToTlv z fault r buffer iLen).ret)
    (fits : BodyFits z (requestRecords r)) (p : AdRtbProtocol) (world : MatchWorld) {m : Memory}
    (agree : AgreeBelow (AdRtbProtocol.fresh.requestToTlv z fault r buffer iLen).ret
      (replay buffer (AdRtbProtocol.fresh.requestToTlv z fault r buffer iLen).writes) m) :
    let d := p.tlvToRequest z fault world.now m
      (AdRtbProtocol.fresh.requestToTlv z fault r buffer iLen).ret
    (∀ loaded descriptions infos,
      candidates loaded descriptions { world with infos } d.value =
        candidates loaded descriptions { world with infos } r) ↔
      Carried r world ∨ Barren r world ∧ Barren (remote world.now r) world := by
  dsimp only
  rw [(remote_decoded positive fits p world.now agree).2]
  exact agrees_iff

/-- A request of exchange 1 from some area, on a Monday morning. -/
def areaRequest (area : Bytes) : AdRtbRequest :=
  { AdRtbRequest.clear ⟨0, 0⟩ with
    adx := 1
    text := fun text =>
      if text = .size then ascii "300x250" else if text = .area then area else [] }

def mondayMorning : MatchWorld where
  clock := ⟨1, 10⟩
  second := 0
  now := ⟨0, 0⟩
  infos _ := none
  user _ := none

/-- A base order for one area on exchange 1. -/
def areaOrder (area : Bytes) : AdPlanningUnit where
  order := { executeId := 7, nice := adOrderBase }
  time := { push := true, day := [⟨1, 0, 0xffffff⟩] }
  area := [area]
  pidInfo := [⟨1, adPidModeAll, []⟩]
  creativeInfo := (∅ : TreeMap UInt32 AdCreativeInfo).insert 1
    ⟨ascii "g1", ascii "1", [{ width := 300, height := 250 }]⟩

/-- A request without an area is bid on alike. -/
theorem areas_without_loss :
    let e := AdRtbProtocol.fresh.requestToTlv storedZlib (quietFault 0) (areaRequest [])
      (fun _ => 0)
      8192
    let d := AdRtbProtocol.fresh.tlvToRequest storedZlib (quietFault 0) mondayMorning.now
      (replay (fun _ => 0) e.writes) e.ret
    ∀ loaded descriptions infos,
      candidates loaded descriptions { mondayMorning with infos } d.value =
        candidates loaded descriptions { mondayMorning with infos } (areaRequest []) := by
  have inTime : ¬ Late (areaRequest []) mondayMorning := by
    rintro ⟨_, missed⟩
    exact absurd missed (by decide)
  have carried : Carried (areaRequest []) mondayMorning :=
    ⟨by decide, rfl, by decide, by decide, inTime, fun _ _ inside => nomatch inside⟩
  have sent : 0 < (AdRtbProtocol.fresh.requestToTlv storedZlib (quietFault 0) (areaRequest [])
      (fun _ => 0) 8192).ret := by
    decide
  exact (remote_bidding_iff sent ⟨by decide, by decide⟩ AdRtbProtocol.fresh mondayMorning
    fun _ _ _ => rfl).mpr (.inl carried)

/-- The area of a request does not reach a remote engine, which misses the order for it. -/
theorem area_order_missed :
    let r := areaRequest (ascii "0086-0010-0000")
    let e := AdRtbProtocol.fresh.requestToTlv storedZlib (quietFault 0) r (fun _ => 0) 8192
    let d := AdRtbProtocol.fresh.tlvToRequest storedZlib (quietFault 0) mondayMorning.now
      (replay (fun _ => 0) e.writes) e.ret
    d.ret = some adSuccess ∧
      candidates (single (areaOrder (ascii "0086-0010-0000"))) [] mondayMorning d.value = some [] ∧
      candidates (single (areaOrder (ascii "0086-0010-0000"))) [] mondayMorning r = some [0] := by
  have sent : 0 < (AdRtbProtocol.fresh.requestToTlv storedZlib (quietFault 0)
      (areaRequest (ascii "0086-0010-0000")) (fun _ => 0) 8192).ret := by
    decide
  have fits : BodyFits storedZlib (requestRecords (areaRequest (ascii "0086-0010-0000"))) :=
    ⟨by decide, by decide⟩
  obtain ⟨success, value⟩ := remote_decoded sent fits AdRtbProtocol.fresh mondayMorning.now
    fun _ _ _ => rfl
  refine ⟨success, ?_, by decide⟩
  rw [value]
  decide

end RemoteBidding
