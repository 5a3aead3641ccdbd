import Mathlib.Tactic
import RtbAdapter.Exchange
import RtbAdapter.JsonValues
import RtbAdapter.KeyedFields

/-!
# The replies of the bidders

A reply is parsed into seats with bids, every member of which may be missing. The first bid of
the first seat names the request that is answered, and it is taken without a look whether it
is there.
-/

namespace DspReplies

open ByteWords CText JsonValues PendingRequests Exchange

structure AdRtbBid where
  id : Bytes := []
  impId : Bytes := []
  price : Rat := 0
  nUrl : Bytes := []
  crId : Bytes := []
  adm : Bytes := []
  adomain : Bytes := []
  dealId : Bytes := []

structure AdRtbSeatbid where
  bid : List AdRtbBid

structure AdRtbResponse where
  id : Bytes
  seatBid : List AdRtbSeatbid
  bidId : Bytes

/-- The id of a bid is read from the reply, where a missing one is a null. -/
def parseBid (sJson subValue : JsonValue) : Option AdRtbBid := do
  let id ← subValue.optional "id" [] fun _ => do (← sJson.field "id").asString
  let impId ← subValue.optional "impid" [] JsonValue.asString
  let price ← subValue.optional "price" 0 JsonValue.asDouble
  let nUrl ← subValue.optional "nurl" [] JsonValue.asString
  let crId ← subValue.optional "crid" [] JsonValue.asString
  let adm ← subValue.optional "adm" [] JsonValue.asString
  let adomain ← subValue.optional "adomain" [] JsonValue.asString
  let dealId ← subValue.optional "dealid" [] JsonValue.asString
  return { id, impId, price, nUrl, crId, adm, adomain, dealId }

def parseSeat (sJson sValue : JsonValue) : Option AdRtbSeatbid := do
  let bid ← sValue.optional "bid" [] fun value => do (← value.items).mapM (parseBid sJson)
  return ⟨bid⟩

def parseJson (sJson : JsonValue) : Option AdRtbResponse := do
  let id ← sJson.optional "id" [] JsonValue.asString
  let bidId ← sJson.optional "bidid" [] JsonValue.asString
  let seatBid ← sJson.optional "seatbid" [] fun value => do
    (← value.items).mapM (parseSeat sJson)
  return ⟨id, seatBid, bidId⟩

/-- `m_vSeatBid[0].m_vBid[0]`, when it is there. -/
def AdRtbResponse.firstBid (res : AdRtbResponse) : Option AdRtbBid :=
  res.seatBid.head?.bind fun seat => seat.bid.head?

/-- What the parsers make of a packet: whether it is a reply with the state of success and a
body, and the JSON of the body. -/
structure DspReply where
  parseResponse : Bool
  httpOk : Bool
  body : Bool
  json : Option JsonValue

/-- The process ends at a value of a wrong kind, or a list is read past its end, or the list of
the pending requests is left and a request gets a bid. -/
inductive Outcome where
  | ended
  | outOfBounds
  | done (list : AdParaList) (delivered : Option (Nat × AdRtbBid))

/-- `SendResponse`, with the response that the request got. -/
def sendResponse (list : AdParaList) (req : Nat) (response : AdRtbResponse) : Outcome :=
  match response.firstBid with
  | none => .outOfBounds
  | some bid => .done list (some (req, bid))

/-- What is left when a missing id was looked up: a null under its name. -/
def withId (sJson : JsonValue) : JsonValue :=
  match sJson with
  | .object members =>
    if (members.lookup (ascii "id")).isSome then sJson
    else .object (KeyedFields.set (ascii "id") .null members)
  | _ => sJson

/-- `DspResponse`, from the packet on. The response is parsed again for the request. A look at a
missing id in between does not matter (`parseJson_withId`). -/
def dspResponse (list : AdParaList) (reply : DspReply) : Outcome :=
  match reply.parseResponse && reply.httpOk && reply.body, reply.json with
  | true, some value =>
    match parseJson value with
    | none => .ended
    | some cRes =>
      match cRes.firstBid with
      | none => .outOfBounds
      | some bid =>
        match list.delTime (Exchange.toULong (atol bid.impId)) with
        | (none, list) => .done list none
        | (some req, list) =>
          match parseJson value with
          | none => .ended
          | some response => sendResponse list req response
  | _, _ => .done list none

def member (value : JsonValue) (key : String) : Option JsonValue :=
  match value with
  | .object members => members.lookup (ascii key)
  | _ => none

def isRecord : JsonValue → Bool
  | .null => true
  | .object _ => true
  | _ => false

def isText : JsonValue → Bool
  | .null => true
  | .string _ => true
  | .bool _ => true
  | _ => false

def isNumber : JsonValue → Bool
  | .null => true
  | .int _ => true
  | .uint _ => true
  | .real _ => true
  | .bool _ => true
  | _ => false

/-- Every member of a loop is right. A value that is no list has no members, but an object is
taken for a list by the length. -/
def Listed (good : JsonValue → Prop) : JsonValue → Prop
  | .array items => ∀ x ∈ items, good x
  | .object members => members = []
  | _ => True

/-- A member that is right when it is there. -/
def Optional (value : JsonValue) (key : String) (good : JsonValue → Prop) : Prop :=
  ∀ x, member value key = some x → good x

structure BidTyped (subValue : JsonValue) : Prop where
  record : isRecord subValue
  impId : Optional subValue "impid" (isText ·)
  price : Optional subValue "price" (isNumber ·)
  nUrl : Optional subValue "nurl" (isText ·)
  crId : Optional subValue "crid" (isText ·)
  adm : Optional subValue "adm" (isText ·)
  adomain : Optional subValue "adomain" (isText ·)
  dealId : Optional subValue "dealid" (isText ·)

structure SeatTyped (sValue : JsonValue) : Prop where
  record : isRecord sValue
  bids : Optional sValue "bid" (Listed BidTyped)

/-- The members that are there have the kinds that they are read as. -/
structure WellTyped (sJson : JsonValue) : Prop where
  record : isRecord sJson
  id : Optional sJson "id" (isText ·)
  bidId : Optional sJson "bidid" (isText ·)
  seats : Optional sJson "seatbid" (Listed SeatTyped)

def firstOf : JsonValue → Option JsonValue
  | .array (x :: _) => some x
  | _ => none

/-- The first bid of the first seat. -/
def firstBid (sJson : JsonValue) : Option JsonValue :=
  ((member sJson "seatbid").bind firstOf).bind fun seat => (member seat "bid").bind firstOf

/-- The impression that a bid is for. -/
def impText (subValue : JsonValue) : Bytes :=
  ((member subValue "impid").bind JsonValue.asString).getD []

variable {α β : Type} {value sJson subValue sValue : JsonValue} {key : String} {absent : α}
  {read : JsonValue → Option α}

/-- A step whose result does not matter for whether the rest can be done. -/
theorem isSome_bind {x : Option α} {f : α → Option β} {rest : Prop}
    (each : ∀ a, (f a).isSome = true ↔ rest) :
    (x.bind f).isSome = true ↔ x.isSome = true ∧ rest := by
  cases x with
  | none => simp
  | some a => simpa using each a

theorem asString_isSome : value.asString.isSome = isText value := by
  cases value <;> rfl

theorem asDouble_isSome : value.asDouble.isSome = isNumber value := by
  cases value <;> rfl

/-- A member that is read when it is there. -/
theorem optional_eq (record : isRecord value = true) :
    value.optional key absent read = (member value key).elim (some absent) read := by
  cases value with
  | null => rfl
  | object members =>
    cases found : members.lookup (ascii key) with
    | none => simp [JsonValue.optional, JsonValue.isMember, member, found]
    | some x => simp [JsonValue.optional, JsonValue.isMember, JsonValue.field, member, found]
  | _ => cases record

theorem optional_none (other : isRecord value = false) : value.optional key absent read = none := by
  cases value with
  | null => cases other
  | object members => cases other
  | _ => rfl

theorem optional_isSome : (value.optional key absent read).isSome = true ↔
    isRecord value = true ∧ Optional value key fun x => (read x).isSome = true := by
  cases record : isRecord value with
  | false => simp [optional_none record]
  | true =>
    rw [optional_eq record, Optional]
    cases member value key <;> simp

theorem mapM_isSome {f : α → Option β} {xs : List α} :
    (xs.mapM f).isSome = true ↔ ∀ x ∈ xs, (f x).isSome = true := by
  induction xs with
  | nil => simp
  | cons x xs ih =>
    rw [List.mapM_cons, List.forall_mem_cons, ← ih]
    cases f x <;> cases xs.mapM f <;> simp

/-- A loop over the members of a value. -/
theorem listed_isSome {f : JsonValue → Option α} :
    (value.items.bind fun items => items.mapM f).isSome = true ↔
      Listed (fun x => (f x).isSome = true) value := by
  cases value with
  | array items =>
    rw [items_array, Option.bind_some, mapM_isSome]
    rfl
  | object members =>
    cases members with
    | nil => simp [JsonValue.items, JsonValue.size, Listed]
    | cons first rest =>
      simp [JsonValue.items, JsonValue.size, Listed, List.range_succ_eq_map, JsonValue.nth]
  | _ => simp [JsonValue.items, JsonValue.size, Listed]

/-- The id of the reply can be read whenever a bid asks for it. -/
theorem id_isSome (top : isRecord sJson = true) (id : Optional sJson "id" (isText ·)) :
    ((sJson.field "id").bind JsonValue.asString).isSome = true := by
  cases sJson with
  | null => rfl
  | object members =>
    rw [JsonValue.field, Option.bind_some, asString_isSome]
    cases found : members.lookup (ascii "id") with
    | none => rfl
    | some x => exact id x found
  | _ => cases top

theorem parseBid_isSome (top : isRecord sJson = true) (id : Optional sJson "id" (isText ·)) :
    (parseBid sJson subValue).isSome = true ↔ BidTyped subValue := by
  rw [parseBid]
  refine Iff.trans (isSome_bind fun _ => isSome_bind fun _ => isSome_bind fun _ =>
    isSome_bind fun _ => isSome_bind fun _ => isSome_bind fun _ => isSome_bind fun _ =>
    isSome_bind fun _ => iff_of_true rfl trivial) ?_
  simp only [optional_isSome, asString_isSome, asDouble_isSome]
  constructor
  · rintro ⟨_, ⟨record, impId⟩, ⟨_, price⟩, ⟨_, nUrl⟩, ⟨_, crId⟩, ⟨_, adm⟩, ⟨_, adomain⟩,
      ⟨_, dealId⟩, _⟩
    exact ⟨record, impId, price, nUrl, crId, adm, adomain, dealId⟩
  · intro typed
    have record := typed.record
    exact ⟨⟨record, fun _ _ => id_isSome top id⟩, ⟨record, typed.impId⟩, ⟨record, typed.price⟩,
      ⟨record, typed.nUrl⟩, ⟨record, typed.crId⟩, ⟨record, typed.adm⟩, ⟨record, typed.adomain⟩,
      ⟨record, typed.dealId⟩, trivial⟩

theorem parseSeat_isSome (top : isRecord sJson = true) (id : Optional sJson "id" (isText ·)) :
    (parseSeat sJson sValue).isSome = true ↔ SeatTyped sValue := by
  rw [parseSeat]
  refine Iff.trans (isSome_bind fun _ => iff_of_true rfl trivial) ?_
  rw [optional_isSome, and_true]
  have bids (value : JsonValue) : ((value.items.bind fun items =>
      items.mapM (parseBid sJson)).isSome = true) ↔ Listed BidTyped value := by
    rw [listed_isSome]
    simp only [parseBid_isSome top id]
  constructor
  · rintro ⟨record, all⟩
    exact ⟨record, fun value there => (bids value).mp (all value there)⟩
  · rintro ⟨record, all⟩
    exact ⟨record, fun value there => (bids value).mpr (all value there)⟩

/-- A reply can be parsed exactly when it is well typed. -/
theorem parseJson_isSome : (parseJson sJson).isSome = true ↔ WellTyped sJson := by
  rw [parseJson]
  refine Iff.trans (isSome_bind fun _ => isSome_bind fun _ => isSome_bind fun _ =>
    iff_of_true rfl trivial) ?_
  simp only [optional_isSome, asString_isSome, and_true]
  have seats (top : isRecord sJson = true) (id : Optional sJson "id" (isText ·))
      (value : JsonValue) : ((value.items.bind fun items =>
        items.mapM (parseSeat sJson)).isSome = true) ↔ Listed SeatTyped value := by
    rw [listed_isSome]
    simp only [parseSeat_isSome top id]
  constructor
  · rintro ⟨⟨record, id⟩, ⟨_, bidId⟩, _, all⟩
    exact ⟨record, id, bidId, fun value there => (seats record id value).mp (all value there)⟩
  · rintro ⟨record, id, bidId, all⟩
    exact ⟨⟨record, id⟩, ⟨record, bidId⟩, record,
      fun value there => (seats record id value).mpr (all value there)⟩

/-- A loop over a value has the first member of the value first. -/
theorem listed_head {f : JsonValue → Option α} {ys : List α}
    (done : (value.items.bind fun items => items.mapM f) = some ys) :
    (firstOf value).map f = ys.head?.map some := by
  cases value with
  | array items =>
    rw [items_array, Option.bind_some] at done
    cases items with
    | nil =>
      obtain rfl : [] = ys := by simpa using done
      rfl
    | cons x rest =>
      obtain ⟨first, later, here, -, rfl⟩ := mapM_cons_eq_some.mp done
      exact congrArg some here
  | object members =>
    cases members with
    | nil =>
      obtain rfl : [] = ys := by simpa [JsonValue.items, JsonValue.size] using done
      rfl
    | cons first rest =>
      simp [JsonValue.items, JsonValue.size, List.range_succ_eq_map, JsonValue.nth] at done
  | _ =>
    obtain rfl : [] = ys := by simpa [JsonValue.items, JsonValue.size] using done
    rfl

theorem optional_some {x : α} (done : value.optional key absent read = some x) :
    (member value key).elim (some absent) read = some x := by
  cases record : isRecord value with
  | false =>
    rw [optional_none record] at done
    cases done
  | true => rwa [optional_eq record] at done

/-- The first of a list that is read when it is there. -/
theorem optional_head {f : JsonValue → Option α} {ys : List α}
    (done : value.optional key [] (fun x => x.items.bind fun items => items.mapM f) = some ys) :
    ((member value key).bind firstOf).map f = ys.head?.map some := by
  have all := optional_some done
  cases there : member value key with
  | none =>
    rw [there] at all
    obtain rfl := Option.some.inj all
    rfl
  | some x =>
    rw [there] at all
    exact listed_head all

theorem parseBid_impId {bid : AdRtbBid} (done : parseBid sJson subValue = some bid) :
    bid.impId = impText subValue := by
  rw [parseBid] at done
  obtain ⟨id, _, done⟩ := Option.bind_eq_some_iff.mp done
  obtain ⟨impId, imp, done⟩ := Option.bind_eq_some_iff.mp done
  have same : impId = impText subValue := by
    have named := optional_some imp
    rw [impText]
    cases there : member subValue "impid" with
    | none =>
      rw [there] at named
      exact (Option.some.inj named).symm
    | some x =>
      rw [there] at named
      rw [Option.bind_some, show x.asString = some impId from named]
      rfl
  iterate 6 obtain ⟨_, _, done⟩ := Option.bind_eq_some_iff.mp done
  obtain rfl := Option.some.inj done
  exact same

/-- The first bid that is parsed is the first bid of the reply. -/
theorem parseJson_first {res : AdRtbResponse} (done : parseJson sJson = some res) :
    (firstBid sJson).map (parseBid sJson) = res.firstBid.map some := by
  rw [parseJson] at done
  obtain ⟨id, _, done⟩ := Option.bind_eq_some_iff.mp done
  obtain ⟨bidId, _, done⟩ := Option.bind_eq_some_iff.mp done
  obtain ⟨seatBid, seats, done⟩ := Option.bind_eq_some_iff.mp done
  obtain rfl := Option.some.inj done
  have first := optional_head seats
  rw [AdRtbResponse.firstBid, firstBid]
  cases front : (member sJson "seatbid").bind firstOf with
  | none =>
    have none : seatBid.head? = none := by simpa [front] using first
    rw [none]
    rfl
  | some value =>
    rw [front] at first
    obtain ⟨seat, head, same⟩ := Option.map_eq_some_iff.mp first.symm
    rw [head, Option.bind_some, Option.bind_some]
    rw [parseSeat] at same
    obtain ⟨bid, bids, made⟩ := Option.bind_eq_some_iff.mp same.symm
    obtain rfl := Option.some.inj made
    exact optional_head bids

theorem get_eq_lookup (name : Bytes) (members : List (Bytes × JsonValue)) :
    KeyedFields.get name members = members.lookup name := by
  induction members with
  | nil => rfl
  | cons first rest ih =>
    obtain ⟨key, value⟩ := first
    rw [KeyedFields.get, List.lookup_cons, ih]
    by_cases same : key = name
    · simp [same]
    · simp [same, beq_eq_false_iff_ne.mpr (Ne.symm same)]

/-- The null is the id that was missing, and no other member. -/
theorem member_withId (record : isRecord sJson = true) : isRecord (withId sJson) = true ∧
    (∀ key : String, ascii key ≠ ascii "id" → member (withId sJson) key = member sJson key) ∧
    (member (withId sJson) "id").getD .null = (member sJson "id").getD .null := by
  cases sJson with
  | null => exact ⟨rfl, fun _ _ => rfl, rfl⟩
  | object members =>
    rw [withId]
    split_ifs with there
    · exact ⟨rfl, fun _ _ => rfl, rfl⟩
    · refine ⟨rfl, fun key other => ?_, ?_⟩
      · rw [member, member, ← get_eq_lookup, ← get_eq_lookup, KeyedFields.get_set,
          if_neg (Ne.symm other)]
      · rw [member, member, ← get_eq_lookup, KeyedFields.get_set, if_pos rfl,
          Option.not_isSome_iff_eq_none.mp there]
        rfl
  | _ => cases record

theorem withId_other (other : isRecord sJson = false) : withId sJson = sJson := by
  cases sJson with
  | object members => cases other
  | _ => rfl

/-- Parsing again gives the same response. -/
theorem parseJson_withId : parseJson (withId sJson) = parseJson sJson := by
  cases record : isRecord sJson with
  | false => rw [withId_other record]
  | true =>
    obtain ⟨record', others, id⟩ := member_withId record
    have field (value : JsonValue) (record : isRecord value = true) :
        value.field "id" = some ((member value "id").getD .null) := by
      cases value with
      | null => rfl
      | object members => rfl
      | _ => cases record
    have bids : parseBid (withId sJson) = parseBid sJson := by
      funext subValue
      rw [parseBid, parseBid, field _ record', field _ record, id]
    have text : (member (withId sJson) "id").elim (some []) JsonValue.asString =
        (member sJson "id").elim (some []) JsonValue.asString := by
      have absent (x : Option JsonValue) :
          x.elim (some []) JsonValue.asString = (x.getD .null).asString := by
        cases x <;> rfl
      rw [absent, absent, id]
    have seats : parseSeat (withId sJson) = parseSeat sJson := by
      funext sValue
      rw [parseSeat, parseSeat, bids]
    rw [parseJson, parseJson, optional_eq record', optional_eq record', optional_eq record',
      optional_eq record, optional_eq record, optional_eq record, text,
      others "bidid" (by decide), others "seatbid" (by decide), seats]

variable {list after : AdParaList} {reply : DspReply} {req : Nat} {bid : AdRtbBid}

/-- The JSON of a reply that is looked at. -/
def Reads (reply : DspReply) (value : JsonValue) : Prop :=
  (reply.parseResponse && reply.httpOk && reply.body) = true ∧ reply.json = some value

/-- The time that the impression of a bid stands for. -/
def impTime (subValue : JsonValue) : Nat := Exchange.toULong (atol (impText subValue))

/-- The first bid of the reply names a pending request by its time. -/
def Names (reply : DspReply) (list : AdParaList) (req : Nat) : Prop :=
  ∃ value subValue, Reads reply value ∧ firstBid value = some subValue ∧
    list.mTime[impTime subValue]? = some req

/-- No list is read past its end, a bid is given to a pending request that the first bid of the
reply names, and otherwise the pending list stays. -/
structure Safe (list : AdParaList) (reply : DspReply) : Prop where
  inside : dspResponse list reply ≠ .outOfBounds
  delivered : ∀ after req bid, dspResponse list reply = .done after (some (req, bid)) →
    Names reply list req
  kept : ∀ after, dspResponse list reply = .done after none → after = list

/-- What the handling of a reply comes to, by the shape of its JSON. -/
theorem dspResponse_cases (list : AdParaList) {value : JsonValue} (reads : Reads reply value) :
    (¬ WellTyped value ∧ dspResponse list reply = .ended) ∨
      (WellTyped value ∧ firstBid value = none ∧ dspResponse list reply = .outOfBounds) ∨
      ∃ subValue, WellTyped value ∧ firstBid value = some subValue ∧
        ((list.mTime[impTime subValue]? = none ∧ dspResponse list reply = .done list none) ∨
          ∃ req bid, list.mTime[impTime subValue]? = some req ∧
            parseBid value subValue = some bid ∧ dspResponse list reply =
              .done (list.without (impTime subValue) req) (some (req, bid))) := by
  cases parsed : parseJson value with
  | none =>
    refine .inl ⟨fun typed => ?_, ?_⟩
    · have some := parseJson_isSome.mpr typed
      rw [parsed] at some
      cases some
    · simp only [dspResponse, reads.1, reads.2, parsed]
  | some res =>
    have typed : WellTyped value := parseJson_isSome.mp (by rw [parsed]; rfl)
    have first := parseJson_first parsed
    cases front : firstBid value with
    | none =>
      rw [front] at first
      have none : res.firstBid = none := Option.map_eq_none_iff.mp first.symm
      exact .inr (.inl ⟨typed, rfl, by simp only [dspResponse, reads.1, reads.2, parsed, none]⟩)
    | some subValue =>
      rw [front] at first
      obtain ⟨bid, head, same⟩ := Option.map_eq_some_iff.mp first.symm
      refine .inr (.inr ⟨subValue, typed, rfl, ?_⟩)
      have time : impTime subValue = Exchange.toULong (atol bid.impId) := by
        rw [impTime, parseBid_impId same.symm]
      rw [time]
      cases found : list.mTime[Exchange.toULong (atol bid.impId)]? with
      | none =>
        refine .inl ⟨rfl, ?_⟩
        simp only [dspResponse, reads.1, reads.2, parsed, head, AdParaList.delTime, found]
      | some req =>
        refine .inr ⟨req, bid, rfl, same.symm, ?_⟩
        simp only [dspResponse, reads.1, reads.2, parsed, head, AdParaList.delTime, found,
          sendResponse]

theorem dspResponse_unread (list : AdParaList) (unread : ∀ value, ¬ Reads reply value) :
    dspResponse list reply = .done list none := by
  rw [dspResponse]
  split
  · next value readable json => exact absurd ⟨readable, json⟩ (unread value)
  · rfl

/-- A bid goes only to the request that the first bid names, and else the list stays. -/
theorem dspResponse_done {delivered : Option (Nat × AdRtbBid)}
    (done : dspResponse list reply = .done after delivered) :
    (delivered = none ∧ after = list) ∨
      ∃ req bid, delivered = some (req, bid) ∧ Names reply list req := by
  by_cases read : ∃ value, Reads reply value
  · obtain ⟨value, reads⟩ := read
    rcases dspResponse_cases list reads with ⟨_, same⟩ | ⟨_, _, same⟩ | ⟨subValue, _, first, rest⟩
    · rw [same] at done
      cases done
    · rw [same] at done
      cases done
    · rcases rest with ⟨_, same⟩ | ⟨req, bid, found, _, same⟩
      · rw [same] at done
        cases done
        exact .inl ⟨rfl, rfl⟩
      · rw [same] at done
        cases done
        exact .inr ⟨req, bid, rfl, value, subValue, reads, first, found⟩
  · rw [dspResponse_unread list (not_exists.mp read)] at done
    cases done
    exact .inl ⟨rfl, rfl⟩

theorem Reads.unique {value other : JsonValue} (one : Reads reply value)
    (two : Reads reply other) : other = value :=
  Option.some.inj (two.2.symm.trans one.2)

/-- The two ways not to come to the end. -/
theorem dspResponse_stops (list : AdParaList) (reply : DspReply) :
    (dspResponse list reply = .outOfBounds ↔
      ∃ value, Reads reply value ∧ WellTyped value ∧ firstBid value = none) ∧
    (dspResponse list reply = .ended ↔ ∃ value, Reads reply value ∧ ¬ WellTyped value) := by
  by_cases read : ∃ value, Reads reply value
  · obtain ⟨value, reads⟩ := read
    rcases dspResponse_cases list reads with ⟨wrong, same⟩ | ⟨typed, none, same⟩ |
      ⟨subValue, typed, first, rest⟩
    · rw [same]
      refine ⟨iff_of_false nofun ?_, iff_of_true rfl ⟨value, reads, wrong⟩⟩
      rintro ⟨other, reads', typed, _⟩
      exact wrong (reads.unique reads' ▸ typed)
    · rw [same]
      refine ⟨iff_of_true rfl ⟨value, reads, typed, none⟩, iff_of_false nofun ?_⟩
      rintro ⟨other, reads', wrong⟩
      exact wrong (reads.unique reads' ▸ typed)
    · have done : ∃ after delivered, dspResponse list reply = .done after delivered := by
        rcases rest with ⟨_, same⟩ | ⟨_, _, _, _, same⟩ <;> exact ⟨_, _, same⟩
      obtain ⟨after, delivered, same⟩ := done
      rw [same]
      refine ⟨iff_of_false nofun ?_, iff_of_false nofun ?_⟩
      · rintro ⟨other, reads', _, none⟩
        rw [reads.unique reads', first] at none
        cases none
      · rintro ⟨other, reads', wrong⟩
        exact wrong (reads.unique reads' ▸ typed)
  · rw [dspResponse_unread list (not_exists.mp read)]
    refine ⟨iff_of_false nofun ?_, iff_of_false nofun ?_⟩
    · exact fun ⟨value, reads, _⟩ => read ⟨value, reads⟩
    · exact fun ⟨value, reads, _⟩ => read ⟨value, reads⟩

/-- A reply is safe as long as no list is read past its end. -/
theorem safe_iff : Safe list reply ↔ dspResponse list reply ≠ .outOfBounds := by
  refine ⟨Safe.inside, fun inside => ⟨inside, fun after req bid done => ?_, fun after done => ?_⟩⟩
  · rcases dspResponse_done done with ⟨none, _⟩ | ⟨_, _, same, names⟩
    · cases none
    · cases same
      exact names
  · rcases dspResponse_done done with ⟨_, same⟩ | ⟨_, _, some, _⟩
    · exact same
    · cases some

/-- A reply is safe exactly when each JSON that is well typed has a first bid, and it is also
handled to its end exactly when each JSON is well typed and has one. -/
theorem dsp_replies (list : AdParaList) (reply : DspReply) :
    (Safe list reply ↔
      ∀ value, Reads reply value → WellTyped value → (firstBid value).isSome) ∧
    (Safe list reply ∧ dspResponse list reply ≠ .ended ↔
      ∀ value, Reads reply value → WellTyped value ∧ (firstBid value).isSome) := by
  obtain ⟨outside, ended⟩ := dspResponse_stops list reply
  rw [safe_iff, ne_eq, ne_eq, outside, ended]
  constructor
  · constructor
    · intro inside value reads typed
      exact Option.isSome_iff_ne_none.mpr fun none => inside ⟨value, reads, typed, none⟩
    · rintro first ⟨value, reads, typed, none⟩
      exact Option.isSome_iff_ne_none.mp (first value reads typed) none
  · constructor
    · rintro ⟨inside, runs⟩ value reads
      have typed : WellTyped value := by_contra fun wrong => runs ⟨value, reads, wrong⟩
      exact ⟨typed, Option.isSome_iff_ne_none.mpr fun none => inside ⟨value, reads, typed, none⟩⟩
    · intro all
      refine ⟨?_, ?_⟩
      · rintro ⟨value, reads, _, none⟩
        exact Option.isSome_iff_ne_none.mp (all value reads).2 none
      · rintro ⟨value, reads, wrong⟩
        exact wrong (all value reads).1

/-- No bid at all. -/
def noBid : DspReply :=
  ⟨true, true, true, some (.object [(ascii "id", .string (ascii "1")),
    (ascii "seatbid", .array [])])⟩

theorem no_bid : ¬ Safe .empty noBid := by
  intro safe
  exact safe.inside rfl

/-- What the exchange takes from a reply. -/
def DspReply.http (reply : DspReply) : HttpReply where
  parseResponse := reply.parseResponse
  httpOk := reply.httpOk
  body := reply.body
  json := reply.json.isSome
  impId := ((reply.json.bind parseJson).bind AdRtbResponse.firstBid).map fun bid => atol bid.impId

/-- The exchange handles a reply so. -/
theorem dspReply_eq (s : AdAdx) (session : Nat) (list : AdParaList) (reply : DspReply) :
    s.dspReply session list reply.http =
      match dspResponse list reply with
      | .done after (some (req, _)) => (s.setPrivate session (some after)).sendResponse req
      | .done _ none => s
      | _ => { s with crashed := true } := by
  obtain ⟨parses, ok, body, json⟩ := reply
  have readable : (DspReply.http ⟨parses, ok, body, json⟩).readable =
      (parses && ok && body && json.isSome) := rfl
  rw [AdAdx.dspReply, readable, dspResponse]
  cases flags : parses && ok && body with
  | false => rfl
  | true =>
    cases json with
    | none => rfl
    | some value =>
      rw [DspReply.http, Option.bind_some]
      cases parsed : parseJson value with
      | none => simp [parsed]
      | some res =>
        cases first : res.firstBid with
        | none => simp [parsed, first]
        | some bid =>
          have known : (some res).bind AdRtbResponse.firstBid = some bid := first
          simp only [parsed, known, first, Option.map_some]
          rcases list.delTime (Exchange.toULong (atol bid.impId)) with ⟨_ | req, after⟩
          · rfl
          · simp [sendResponse, first]

end DspReplies
