import RtbAdapter.MatchedOrders
import RtbAdapter.RemoteRequest

/-!
# Bidding on a request and on what a remote engine sees of it

The fifteen tables are asked for keys of the request, most of which reach a remote
engine as they are. A local and a remote engine find the same orders whenever the
lost members make no difference to the keys, to the time left and to the marks.
-/

namespace RemoteMatch

open ByteWords CText PlanningUnit RtbBase FilterTables FilterMark RtbFilters FilterReferences
open FilterResults LoadedOrders MatchedOrders RemoteRequest Std
open NetProtocol (adSuccess adFailure)

/-- A crowd category that no keyword of an order can be found in: nothing but stars, which no
keyword has, and too short for the search in an empty tree. -/
def Starred (crowd : Bytes) : Prop := (∀ b ∈ crowd, b = 42) ∧ crowd.length < 512

/-- What a request must not lose. -/
structure Carried (r : AdRtbRequest) (world : MatchWorld) : Prop where
  adx : r.adx ≤ 255
  area : r.text .area = []
  pid : ∀ key ∈ pidAsks r, key ∈ pidAsks (remote world.now r)
  ban : ∀ key ∈ banAsks r, key ∈ banAsks (remote world.now r)
  inTime : ¬ Late r world
  crowd : world.user (userQuery r) = none → ∀ crowd ∈ r.list .crowdCategory, Starred crowd

variable {r : AdRtbRequest} {world : MatchWorld} {now : Time}

theorem remote_adx_of_le (low : r.adx ≤ 255) : (remote now r).adx = r.adx := Packets.adx_byte low

theorem remote_flow : flowOf (remote now r) = flowOf r := by
  rw [flowOf, flowOf, remote_text _ (by decide) (by decide)]

theorem userQuery_remote (low : r.adx ≤ 255) : userQuery (remote now r) = userQuery r := by
  simp only [userQuery, remote_adx_of_le low, remote_flow,
    remote_text .userID (by decide) (by decide),
    remote_text .userIP (by decide) (by decide),
    remote_text .userAgent (by decide) (by decide)]

theorem areaAsks_remote (area : r.text .area = []) : areaAsks (remote now r) = areaAsks r := by
  rw [areaAsks, areaAsks, area, remote_area]

theorem sizeAsks_remote (low : r.adx ≤ 255) : sizeAsks (remote now r) = sizeAsks r := by
  rw [sizeAsks, sizeAsks, remote_adx_of_le low, remote_text _ (by decide) (by decide)]

theorem tanxAsks_remote (low : r.adx ≤ 255) (descriptions : AdMap AdTanxDescription) :
    tanxAsks descriptions (remote now r) = tanxAsks descriptions r := by
  rw [tanxAsks, tanxAsks, remote_adx_of_le low, remote_text _ (by decide) (by decide)]

theorem parameterKeeps_remote (low : r.adx ≤ 255) (unit : Nat → AdPlanningUnit) :
    parameterKeeps unit (remote now r) = parameterKeeps unit r := by
  funext entry
  simp only [parameterKeeps, remote_adx_of_le low, remote_flow,
    remote_text .adViewScreen (by decide) (by decide),
    remote_text .adViewType (by decide) (by decide),
    remote_text .size (by decide) (by decide)]

theorem mem_map_filter {list : List Bytes} {ask : Bytes → Bytes} {key : Bytes}
    (asked : key ∈ (list.filter (· ≠ [])).map ask) : key ∈ list.map ask := by
  obtain ⟨entry, listed, rfl⟩ := List.mem_map.mp asked
  exact List.mem_map_of_mem (List.mem_of_mem_filter listed)

/-- A remote engine asks for no place that the request does not ask for. -/
theorem pidAsks_remote (low : r.adx ≤ 255) {key : Bytes} (asked : key ∈ pidAsks (remote now r)) :
    key ∈ pidAsks r := by
  rw [pidAsks, remote_adx_of_le low, remote_text _ (by decide) (by decide),
    remote_list _ (by decide)] at asked
  rcases List.mem_append.mp asked with fixed | other
  · exact List.mem_append_left _ fixed
  · exact List.mem_append_right _ (mem_map_filter other)

/-- Nor does it ban more. -/
theorem banAsks_remote (low : r.adx ≤ 255) {key : Bytes} (asked : key ∈ banAsks (remote now r)) :
    key ∈ banAsks r := by
  have create : createAsk (remote now r) = createAsk r := by
    funext create
    rw [createAsk, createAsk, remote_adx_of_le low, remote_text _ (by decide) (by decide)]
  simp only [banAsks, remote_adx_of_le low, remote_list .sensitive (by decide),
    remote_list .category (by decide), remote_list .create (by decide),
    remote_list .siteCategory (by decide), create,
    remote_text .pId (by decide) (by decide), List.mem_append] at asked ⊢
  rcases asked with ((((asked | asked) | asked) | asked) | asked) | asked
  · exact .inl (.inl (.inl (.inl (.inl asked))))
  · exact .inl (.inl (.inl (.inl (.inr (mem_map_filter asked)))))
  · exact .inl (.inl (.inl (.inr (mem_map_filter asked))))
  · exact .inl (.inl (.inr (mem_map_filter asked)))
  · exact .inl (.inr asked)
  · exact .inr (mem_map_filter asked)

theorem got_eq_true {asks keys : List Bytes} : got asks keys ↔ ∃ key ∈ asks, key ∈ keys := by
  simp [got]

theorem got_congr {asks other : List Bytes} (same : ∀ key, key ∈ asks ↔ key ∈ other)
    (keys : List Bytes) : got asks keys = got other keys := by
  rw [Bool.eq_iff_iff, got_eq_true, got_eq_true]
  simp only [same]

theorem numberKey_ne_nil (n : UInt32) : numberKey n ≠ [] := by
  have value := decimal_ne_nil (toInt32 n.toNat)
  obtain ⟨b, rest, same⟩ := List.exists_cons_of_ne_nil value
  simp [numberKey, snprintf, decimalUInt, same]

theorem userAgentKeys_ne_nil (u : AdPlanningUnit) : [] ∉ userAgentKeys u := by
  rw [userAgentKeys]
  split
  · decide
  · intro inside
    obtain ⟨n, _, same⟩ := List.mem_map.mp inside
    exact numberKey_ne_nil n same

theorem whenPushed_ne_nil (u : AdPlanningUnit) (numbers : List UInt32) :
    [] ∉ whenPushed u (numbers.map numberKey) := by
  rw [whenPushed]
  split
  · intro inside
    obtain ⟨n, _, same⟩ := List.mem_map.mp inside
    exact numberKey_ne_nil n same
  · exact List.not_mem_nil

/-- Empty entries of a list of numbers find nothing. -/
theorem got_numberAsks {list : RequestList} (carried : list ≠ .crowdCategory) {keys : List Bytes}
    (filed : [] ∉ keys) :
    got (numberAsks ((remote now r).list list)) keys = got (numberAsks (r.list list)) keys := by
  rw [remote_list list carried, Bool.eq_iff_iff, got_eq_true, got_eq_true]
  constructor
  · rintro ⟨key, asked, inside⟩
    refine ⟨key, ?_, inside⟩
    rcases List.mem_cons.mp asked with rfl | asked
    · exact List.mem_cons_self
    · exact List.mem_cons_of_mem _ (mem_map_filter asked)
  · rintro ⟨key, asked, inside⟩
    refine ⟨key, ?_, inside⟩
    rcases List.mem_cons.mp asked with rfl | asked
    · exact List.mem_cons_self
    · obtain ⟨text, listed, rfl⟩ := List.mem_map.mp asked
      have some' : text ≠ [] := fun blank => filed (by rwa [blank] at inside)
      exact List.mem_cons_of_mem _
        (List.mem_map_of_mem (List.mem_filter.mpr ⟨listed, by simpa using some'⟩))

/-- What is lost can make a difference to three filters only. -/
theorem passes_remote (low : r.adx ≤ 255) {u : AdPlanningUnit} {clock : LocalTime}
    (pid : got (pidAsks (remote now r)) (pidKeys u) = got (pidAsks r) (pidKeys u))
    (area : got (areaAsks (remote now r)) (areaKeys u) = got (areaAsks r) (areaKeys u))
    (ban : got (banAsks (remote now r)) (banKeys u) = got (banAsks r) (banKeys u)) :
    Passes u clock (remote now r) ↔ Passes u clock r := by
  have adExchange : got (adExchangeAsks (remote now r)) (adExchangeKeys u) =
      got (adExchangeAsks r) (adExchangeKeys u) := by
    rw [adExchangeAsks, adExchangeAsks, remote_adx_of_le low]
  have size : got (sizeAsks (remote now r)) (sizeKeys u) = got (sizeAsks r) (sizeKeys u) := by
    rw [sizeAsks_remote low]
  have agent : got (userAgentAsks (remote now r)) (userAgentKeys u) =
      got (userAgentAsks r) (userAgentKeys u) :=
    got_numberAsks (by decide) (userAgentKeys_ne_nil u)
  have number : ∀ list ≠ .crowdCategory, ∀ numbers : List UInt32,
      got (numberAsks ((remote now r).list list)) (whenPushed u (numbers.map numberKey)) =
        got (numberAsks (r.list list)) (whenPushed u (numbers.map numberKey)) :=
    fun list carried numbers => got_numberAsks carried (whenPushed_ne_nil u numbers)
  have operator := number .mobileOperator (by decide) u.mobile.operator
  have device := number .mobileDevice (by decide) u.mobile.deviceType
  have connect := number .mobileConnect (by decide) u.mobile.connectType
  have flow : flowOf (remote now r) = flowOf r := remote_flow
  have mask : maskOf (remote now r) = maskOf r := by
    rw [maskOf, maskOf, flow]
  have asked : Asked u clock (remote now r) ↔ Asked u clock r := by
    constructor
    · intro there
      exact ⟨there.time, adExchange.symm.trans there.adExchange, pid.symm.trans there.pid,
        area.symm.trans there.area, size.symm.trans there.size, agent.symm.trans there.userAgent,
        fun mobile => operator.symm.trans (there.mobileOperator (flow.trans mobile)),
        fun mobile => device.symm.trans (there.mobileDevice (flow.trans mobile)),
        fun mobile => connect.symm.trans (there.mobileConnect (flow.trans mobile))⟩
    · intro here
      exact ⟨here.time, adExchange.trans here.adExchange, pid.trans here.pid,
        area.trans here.area, size.trans here.size, agent.trans here.userAgent,
        fun mobile => operator.trans (here.mobileOperator (flow.symm.trans mobile)),
        fun mobile => device.trans (here.mobileDevice (flow.symm.trans mobile)),
        fun mobile => connect.trans (here.mobileConnect (flow.symm.trans mobile))⟩
  constructor
  · rintro ⟨here, parameter, allowed⟩
    refine ⟨asked.mp here, ?_, ban.symm.trans allowed⟩
    rwa [parameterKeeps_remote low, mask] at parameter
  · rintro ⟨here, parameter, allowed⟩
    refine ⟨asked.mpr here, ?_, ban.trans allowed⟩
    rwa [parameterKeeps_remote low, mask]

/-- No pattern has a star, and an empty tree asks for 512 bytes. -/
structure Starless (tree : AdAcbmTree) : Prop where
  root : tree.root = false → tree.minPtnSize = 512
  nodes : ∀ node ∈ tree.nodes, 42 ∉ node

theorem starless_empty : Starless {} := ⟨fun _ => rfl, fun _ inside => absurd inside (by simp)⟩

theorem tolower_star {b : UInt8} (star : tolower b = 42) : b = 42 := by
  rw [tolower] at star
  split at star
  case isTrue upper =>
    obtain ⟨lower, upper⟩ := upper
    rw [UInt8.le_iff_toNat_le] at lower upper
    have value := congrArg UInt8.toNat star
    simp at value lower upper
    omega
  case isFalse => exact star

theorem stripPrefix_subset {head : String} {text : Bytes} {b : UInt8}
    (inside : b ∈ stripPrefix head text) : b ∈ text := by
  rw [stripPrefix] at inside
  split at inside
  · exact List.mem_of_mem_drop inside
  · exact inside

theorem adFilterMarkGetStr_starless (text : Bytes) : 42 ∉ adFilterMarkGetStr text := by
  intro inside
  have kept := List.of_mem_filter (stripPrefix_subset (stripPrefix_subset inside))
  simp at kept

theorem starless_add {tree : AdAcbmTree} (starless : Starless tree) {mark : AdMarkInfo}
    (key : 42 ∉ mark.key) : Starless (tree.add mark).2 := by
  rw [AdAcbmTree.add]
  split
  · exact starless_empty
  · refine ⟨fun root => absurd root (by simp), fun node inside star => ?_⟩
    rcases List.mem_append.mp inside with old | new
    · exact starless.nodes node old star
    · have path := (List.mem_inits _ _).mp (List.mem_of_mem_filter new)
      obtain ⟨b, listed, lowered⟩ := List.mem_map.mp (path.subset star)
      exact key (tolower_star lowered ▸ listed)

theorem starless_addMarks (address : Nat) (nodes : List AdMarkNode) {filter : AdFilterMark}
    (starless : Starless filter.tree) : Starless (addMarks address nodes filter).2.tree := by
  induction nodes generalizing filter with
  | nil => exact starless
  | cons node nodes ih =>
    have added : Starless
        (filter.tree.add ⟨node.type, adFilterMarkGetStr node.key, address⟩).2 :=
      starless_add starless (adFilterMarkGetStr_starless node.key)
    rw [addMarks]
    dsimp only
    split
    · exact ih added
    · exact added

theorem starless_build (orders : List Allocated) : Starless (build orders).mark.tree := by
  have step : ∀ (orders : List Allocated) (filter : AdFilterMark), Starless filter.tree →
      Starless (orders.foldl AdFilterMark.addData filter).tree := by
    intro orders
    induction orders with
    | nil => exact fun _ starless => starless
    | cons placed orders ih =>
      intro filter starless
      refine ih _ ?_
      have marked := starless_addMarks placed.address placed.unit.keyWord starless
      rw [AdFilterMark.addData]
      dsimp only
      split
      · rw [addAudience]
        dsimp only
        split <;> exact marked
      · exact marked
  rw [build_eq]
  exact step orders {} starless_empty

/-- In stars no keyword is found. -/
theorem search_starred {tree : AdAcbmTree} (starless : Starless tree) {text : Bytes}
    (starred : Starred text) : tree.search text = some [] := by
  rw [AdAcbmTree.search]
  split
  · rfl
  case isFalse long =>
    have root : tree.root = true := by
      by_contra none
      rw [starless.root (by simpa using none)] at long
      exact long starred.2
    simp only [root, Bool.not_true, Bool.false_eq_true, if_false, Option.some.injEq,
      List.flatMap_eq_nil_iff]
    intro base _
    cases rest : text.drop base with
    | nil => rfl
    | cons b more =>
      have star : b = 42 := starred.1 b (List.mem_of_mem_drop (rest ▸ List.mem_cons_self))
      have missing : [] ++ [tolower b] ∉ tree.nodes := fun inside =>
        starless.nodes _ inside (by rw [star]; decide)
      rw [AdAcbmTree.walk]
      exact if_neg missing

theorem matchMarks_starred {unit : Nat → AdPlanningUnit} {tree : AdAcbmTree}
    (starless : Starless tree) {ready : List Nat} {crowds : List Bytes}
    (starred : ∀ crowd ∈ crowds, Starred crowd) (result : AdResult) :
    matchMarks unit tree ready (crowds.map requestMark) [] result = some result := by
  induction crowds with
  | nil => rfl
  | cons crowd crowds ih =>
    obtain ⟨here, starred⟩ := List.forall_mem_cons.mp starred
    rw [List.map_cons, matchMarks]
    have nothing : tree.search (requestMark crowd).mark = some [] := search_starred starless here
    rw [nothing]
    exact ih starred

theorem checkLife_remote : (remote now r).checkLife now = false := by
  rw [AdRtbRequest.checkLife, remote_time, Time.toNow_self]
  rfl

/-- The last filter finds the same orders on both sides. -/
theorem matchRequest_remote {unit : Nat → AdPlanningUnit} {filter : AdFilterMark}
    (carried : Carried r world) (starless : Starless filter.tree) (result : AdResult) :
    filter.matchRequest unit world.user world.now (remote world.now r) result =
      filter.matchRequest unit world.user world.now r result := by
  rw [AdFilterMark.matchRequest, AdFilterMark.matchRequest, userQuery_remote carried.adx,
    remote_crowd, checkLife_remote]
  cases known : world.user (userQuery r) with
  | some data =>
    have inTime : r.checkLife world.now = false := by
      by_contra missed
      exact carried.inTime ⟨.inl (by simp [known]), by simpa using missed⟩
    simp [inTime]
  | none =>
    by_cases uncrowded : r.list .crowdCategory = []
    · simp [uncrowded]
    · have inTime : r.checkLife world.now = false := by
        by_contra missed
        exact carried.inTime ⟨.inr uncrowded, by simpa using missed⟩
      have searched : ∀ ready base, matchMarks unit filter.tree ready
          ((r.list .crowdCategory).map requestMark) [] base = some base :=
        fun ready base => matchMarks_starred starless (carried.crowd known) base
      have silent : ∀ ready base, matchAudience unit filter [] ready base = base := by
        intro ready base
        rw [matchAudience]
        split <;> rfl
      have audience : (userQuery r).audience = [] := rfl
      simp [uncrowded, inTime, searched, silent, audience]

/-- A local and a remote engine find the same orders, as far as nothing is lost. -/
theorem candidates_remote (carried : Carried r world) (loaded : Loaded)
    (descriptions : AdMap AdTanxDescription) :
    candidates loaded descriptions world (remote world.now r) =
      candidates loaded descriptions world r := by
  have low := carried.adx
  have passes : ∀ u, Passes u world.clock (remote world.now r) ↔ Passes u world.clock r := by
    intro u
    refine passes_remote low (got_congr (fun key => ?_) _) ?_ (got_congr (fun key => ?_) _)
    · exact ⟨pidAsks_remote low, carried.pid key⟩
    · rw [areaAsks_remote carried.area]
    · exact ⟨banAsks_remote low, carried.ban key⟩
  have mask : maskOf (remote world.now r) = maskOf r := by
    rw [maskOf, maskOf, remote_flow]
  have same : survivors loaded descriptions world (remote world.now r) =
      survivors loaded descriptions world r := by
    refine sound_survivors.1.ext sound_survivors.1 fun entry => ?_
    rw [mem_survivors, mem_survivors, mask, passes, tanxAsks_remote low]
  have clean := starless_build loaded.orders
  rw [build_eq] at clean
  rw [candidates, candidates, filtersMatch_eq, filtersMatch_eq, same,
    matchRequest_remote carried clean]

end RemoteMatch
