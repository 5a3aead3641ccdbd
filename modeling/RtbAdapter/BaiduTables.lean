import Mathlib.Tactic
import RtbAdapter.CText
import RtbAdapter.FilterTables
import RtbAdapter.NetProtocol
import RtbAdapter.RtbBase

/-!
# Requests and responses of Baidu

A request comes as a parsed message. The excluded creative types of its first slot are
marked in a table of ten; the format of a response is looked up in a table of nine. The
list of user agents that a text is found in, the snippet, and whether the cache has room
for a message are arbitrary.
-/

namespace BaiduTables

open ByteWords CText FilterTables KeyValueStream RtbBase
open NetProtocol (adSuccess adFailure)

structure BesSlot where
  adBlockKey : Option UInt64 := none
  adslotType : Option Int32 := none
  width : Option Int32 := none
  height : Option Int32 := none
  slotVisibility : Option Int32 := none
  creativeType : List Int32 := []
  minimumCpm : Option Int32 := none

structure BesRequest where
  id : Option Bytes := none
  isPing : Option Bool := none
  ip : Option Bytes := none
  userAgent : Option Bytes := none
  baiduIdList : List (Option Bytes) := []
  userCategory : List Int64 := []
  url : Option Bytes := none
  siteCategory : Option Int32 := none
  excludedProductCategory : List Int32 := []
  adslot : List BesSlot := []

structure BesAd where
  maxCpm : Int
  category : Int
  landingPage : Bytes
  advertiserId : Nat
  type : Option Int
  creativeId : Int
  width : Int
  height : Int
  targetUrl : Bytes
  htmlSnippet : Bytes

/-- `is_cookie_matching` is always set, and `sequence_id` is always 1. -/
structure BesResponse where
  id : Bytes
  ad : BesAd

abbrev Value := Slot RequestText RequestList × Bytes

/-- Members are set, and lists grow, one after the other. -/
def put (r : AdRtbRequest) (values : List Value) : AdRtbRequest :=
  { r with toMessage := values.foldl (fun m value => value.1.assign value.2 m) r.toMessage }

def decimal32 (n : Int32) : Bytes := decimal n.toInt

def optional {α : Type} (member : Option α) (t : RequestText) (value : α → Bytes) : List Value :=
  member.toList.map fun a => (.text t, value a)

/-- What is read before the slots. -/
def userValues (uas : Bytes → List Bytes) (req : BesRequest) : List Value :=
  optional req.ip .userIP id ++ optional req.userAgent .userAgent id ++
    (req.userAgent.toList.flatMap uas).map (fun ua => (.list .ualist, ua)) ++
    req.baiduIdList.flatMap (fun user => optional user .userID id) ++
    req.userCategory.map (fun n => (.list .crowdCategory, decimal n.toInt)) ++
    optional req.url .userUrl id ++
    req.siteCategory.toList.map (fun n => (.list .siteCategory, decimal32 n)) ++
    req.excludedProductCategory.map fun n => (.list .category, decimal32 n)

/-- The `AD_PROTOCOL_VIEW_TYPE` of a slot. -/
def adViewType (adslotType : Int32) : Bytes :=
  if adslotType = 0 then ascii "1"
  else if adslotType = 1 then ascii "2"
  else if adslotType = 11 then ascii "12"
  else if adslotType = 12 then ascii "11"
  else if adslotType = 21 ∨ adslotType = 22 ∨ adslotType = 23 then ascii "5"
  else ascii "1"

/-- `create_tup[index] = 1`, in an array of the length of the list. -/
def mark (index : Int) (createTup : List Bool) : Option (List Bool) :=
  if 0 ≤ index ∧ index < createTup.length then some (createTup.set index.toNat true) else none

/-- The loop over the creative types. -/
def markCreates : List Int32 → List Bool → Option (List Bool)
  | [], createTup => some createTup
  | n :: rest, createTup =>
    if n.toInt < 10 then (mark n.toInt createTup).bind (markCreates rest)
    else markCreates rest createTup

/-- What `m_ltCreate` gets: 2 for pictures, 3 for flash and 4 for video. -/
def creates (createTup : List Bool) : List Bytes :=
  match createTup.getD 1 false, createTup.getD 2 false, createTup.getD 7 false with
  | false, false, false => []
  | true, true, true => []
  | true, true, false => [ascii "4"]
  | true, false, true => [ascii "3"]
  | false, true, true => [ascii "2"]
  | true, false, false => [ascii "3", ascii "4"]
  | false, true, false => [ascii "4", ascii "2"]
  | false, false, true => [ascii "2", ascii "3"]

/-- What is read of a slot that has a type. -/
def slotValues (slot : BesSlot) (adslotType : Int32) : Option (List Value) := do
  let createTup ← markCreates slot.creativeType (List.replicate 10 false)
  let size := match slot.width, slot.height with
    | some width, some height => [(.text .size, decimal32 width ++ ascii "x" ++ decimal32 height)]
    | _, _ => []
  return [(.text .adViewType, adViewType adslotType)] ++ size ++
    optional slot.slotVisibility .adViewScreen (fun n => if n = 1 then ascii "1" else ascii "2") ++
    (creates createTup).map (fun create => (.list .create, create)) ++
    optional slot.minimumCpm .minPrice decimal32

/-- The key of a block is printed as a `long`. -/
def firstSlot (slots : List BesSlot) : Option (List Value) :=
  match slots with
  | [] => some []
  | slot :: _ =>
    let key : List Value := optional slot.adBlockKey .pId fun n => decimal n.toInt64.toInt
    match slot.adslotType with
    | none => some key
    | some adslotType => (slotValues slot adslotType).map (key ++ ·)

def checkUserId (r : AdRtbRequest) : AdRtbRequest :=
  let mobile : List RequestText :=
    if flowOf r = adProtocolFlowMobile then [.idfa, .imei, .androidID, .userIP] else []
  match mobile.find? fun t => r.text t ≠ [] with
  | some t => put r [(.text .userID, r.text t)]
  | none =>
    if r.text .userID = [] ∧ r.text .userIP ≠ [] then put r [(.text .userID, r.text .userIP)]
    else r

/-- `AdProtocolBaidu::HttpToInternal`, from what the body parses as. Nothing is an access
outside the table. -/
def httpToInternal (uas : Bytes → List Bytes) (parsed : Option BesRequest) (r : AdRtbRequest) :
    Option (Int × AdRtbRequest) :=
  match parsed with
  | none => some (adFailure, r)
  | some req =>
    let r := put r (optional req.id .bidID id)
    if req.isPing = some true then some (adFailure, r)
    else (firstSlot req.adslot).map fun slot =>
      (adSuccess, checkUserId (put r (userValues uas req ++ slot ++ [(.text .flow, decimal 0)])))

/-- `+=` to a member. -/
def addText (res : AdRtbResponse) (t : ResponseText) (s : Bytes) : AdRtbResponse :=
  { res with text := Function.update res.text t (res.text t ++ s) }

def sgIIbiddingCf : List Int := [1, 1, 1, 1, 7, 2, 1, 1, 1]

/-- `sg_iIbiddingCf[index]` -/
def ibiddingCf (index : Int) : Option Int :=
  if 0 ≤ index then sgIIbiddingCf[index.toNat]? else none

/-- The type of an ad. `sizeof` counts the bytes of the table, four for an `int`. -/
def adType (materailFormat : Bytes) : Option (Option Int) :=
  let format := atoi (cStr materailFormat)
  if toUInt32 format < 4 * sgIIbiddingCf.length then (ibiddingCf format).map some else some none

/-- `AdProtocolBaidu::InternalToHttp`: what is returned, and the message that goes into the cache.
Nothing is a read outside the table. -/
def internalToHttp (snippet : AdRtbRequest → AdRtbResponse → Bytes × Bytes)
    (room : BesResponse → Bool) (r : AdRtbRequest) (res : AdRtbResponse) :
    Option (Int × Option BesResponse) :=
  (adType (res.text .materailFormat)).map fun type =>
    match strSplit (res.text .size) (ascii "x") with
    | [width, height] =>
      let res := addText (addText res .width (cStr width)) .height (cStr height)
      let (targetUrl, htmlSnippet) := snippet r res
      let message : BesResponse :=
        { id := r.text .bidID
          ad :=
            { maxCpm := atoi (cStr (res.text .maxPrice))
              category := atoi (cStr (res.text .category))
              landingPage := res.text .clickUrl
              advertiserId := toUInt32 (atoi (cStr (res.text .advertiserId)))
              type
              creativeId := atol (cStr (res.text .materialID))
              width := atoi (cStr (res.text .width))
              height := atoi (cStr (res.text .height))
              targetUrl, htmlSnippet } }
      if room message then (adSuccess, some message) else (adFailure, none)
    | _ => (adFailure, none)

/-- No access of the two functions is outside its table. -/
def InTables (uas : Bytes → List Bytes)
    (snippet : AdRtbRequest → AdRtbResponse → Bytes × Bytes) (room : BesResponse → Bool)
    (parsed : Option BesRequest) (r : AdRtbRequest) (res : AdRtbResponse) : Prop :=
  (httpToInternal uas parsed r).isSome ∧ (internalToHttp snippet room r res).isSome

/-- The creative types that the loop comes to: those of the first slot, where it has a type and the
request is no ping. -/
def typesRead (parsed : Option BesRequest) : List Int32 :=
  match parsed with
  | none => []
  | some req =>
    if req.isPing = some true then []
    else match req.adslot with
      | slot :: _ => if slot.adslotType.isSome then slot.creativeType else []
      | [] => []

variable {types : List Int32} {createTup after : List Bool}

theorem mark_isSome {index : Int} : (mark index createTup).isSome ↔
    0 ≤ index ∧ index < createTup.length := by
  rw [mark]
  split
  · next inside => simpa using inside
  · next outside => simpa using outside

theorem mark_length {index : Int} (marked : mark index createTup = some after) :
    after.length = createTup.length := by
  rw [mark] at marked
  split at marked
  · rw [← Option.some.inj marked, List.length_set]
  · cases marked

/-- The numbers are tested from above only, so the negative ones are outside. -/
theorem markCreates_isSome (size : createTup.length = 10) :
    (markCreates types createTup).isSome ↔ ∀ n ∈ types, 0 ≤ n.toInt := by
  induction types generalizing createTup with
  | nil => simp [markCreates]
  | cons n types ih =>
    rw [markCreates, List.forall_mem_cons]
    by_cases small : n.toInt < 10
    · rw [if_pos small]
      cases marked : mark n.toInt createTup with
      | none =>
        have outside : ¬ (mark n.toInt createTup).isSome := by rw [marked]; simp
        rw [mark_isSome, size] at outside
        constructor
        · exact fun none => nomatch none
        · exact fun all => absurd ⟨all.1, small⟩ outside
      | some after =>
        have inside : (mark n.toInt createTup).isSome := by rw [marked]; rfl
        rw [mark_isSome] at inside
        rw [Option.bind_some, ih ((mark_length marked).trans size), and_iff_right inside.1]
    · have nonneg : 0 ≤ n.toInt := by omega
      rw [if_neg small, ih size, and_iff_right nonneg]

/-- Where nothing is outside, the table has a mark at each type that is listed below ten. -/
theorem markCreates_marks (size : createTup.length = 10)
    (marked : markCreates types createTup = some after) (k : Nat) (small : k < 10) :
    after.getD k false = (createTup.getD k false || types.any fun n => n.toInt = k) := by
  induction types generalizing createTup with
  | nil =>
    obtain rfl := Option.some.inj marked
    simp
  | cons n types ih =>
    rw [markCreates] at marked
    split at marked
    · obtain ⟨middle, here, later⟩ := Option.bind_eq_some_iff.mp marked
      rw [ih ((mark_length here).trans size) later, List.any_cons]
      rw [mark] at here
      split at here
      · next inside =>
        obtain rfl := Option.some.inj here
        rw [List.getD_eq_getElem?_getD, List.getD_eq_getElem?_getD, List.getElem?_set]
        by_cases same : n.toInt = k
        · have place : n.toInt.toNat = k := by omega
          rw [if_pos place, place, if_pos (by omega)]
          simp [same]
        · have place : n.toInt.toNat ≠ k := by omega
          rw [if_neg place]
          simp [same]
      · cases here
    · next large =>
      have other : n.toInt ≠ k := by omega
      rw [ih size marked, List.any_cons]
      simp [other]

theorem firstSlot_isSome (slots : List BesSlot) : (firstSlot slots).isSome ↔
    ∀ slot ∈ slots.head?, slot.adslotType.isSome → ∀ n ∈ slot.creativeType, 0 ≤ n.toInt := by
  cases slots with
  | nil => simp [firstSlot]
  | cons slot slots =>
    rw [firstSlot]
    cases typed : slot.adslotType with
    | none => simp [typed]
    | some adslotType =>
      have values : (slotValues slot adslotType).isSome ↔ ∀ n ∈ slot.creativeType, 0 ≤ n.toInt := by
        have size : (List.replicate 10 false).length = 10 := rfl
        rw [← markCreates_isSome size, slotValues]
        cases markCreates slot.creativeType (List.replicate 10 false) <;> simp
      simp [values, typed]

theorem httpToInternal_isSome (uas : Bytes → List Bytes) (parsed : Option BesRequest)
    (r : AdRtbRequest) : (httpToInternal uas parsed r).isSome ↔
      ∀ n ∈ typesRead parsed, 0 ≤ n.toInt := by
  cases parsed with
  | none => simp [httpToInternal, typesRead]
  | some req =>
    by_cases ping : req.isPing = some true
    · simp [httpToInternal, typesRead, ping]
    · simp only [httpToInternal, typesRead, if_neg ping, Option.isSome_map, firstSlot_isSome]
      cases req.adslot with
      | nil => simp
      | cons slot slots => cases typed : slot.adslotType <;> simp [typed]

/-- The size in bytes lets four times as many numbers pass as the table has elements. -/
theorem adType_isSome (materailFormat : Bytes) : (adType materailFormat).isSome ↔
    ¬ (9 ≤ toUInt32 (atoi (cStr materailFormat)) ∧
      toUInt32 (atoi (cStr materailFormat)) < 36) := by
  have range : toUInt32 (atoi (cStr materailFormat)) < 36 →
      atoi (cStr materailFormat) = toUInt32 (atoi (cStr materailFormat)) := by
    intro small
    have range := atoi_range (cStr materailFormat)
    simp only [toUInt32] at small ⊢
    omega
  have elements : sgIIbiddingCf.length = 9 := rfl
  simp only [adType]
  by_cases small : toUInt32 (atoi (cStr materailFormat)) < 36
  · rw [elements, if_pos small, ibiddingCf, Option.isSome_map]
    have index := range small
    rw [if_pos (by omega), isSome_getElem?, elements]
    omega
  · rw [elements, if_neg small]
    simp [small]

/-- Both lookups stay in their tables exactly when no creative type that is read is negative, and
the number of the format is none from the end of its table up to the bytes of it. -/
theorem tables_in_range (uas : Bytes → List Bytes)
    (snippet : AdRtbRequest → AdRtbResponse → Bytes × Bytes) (room : BesResponse → Bool)
    (parsed : Option BesRequest) (r : AdRtbRequest) (res : AdRtbResponse) :
    InTables uas snippet room parsed r res ↔
      (∀ n ∈ typesRead parsed, 0 ≤ n.toInt) ∧
        ¬ (9 ≤ toUInt32 (atoi (cStr (res.text .materailFormat))) ∧
          toUInt32 (atoi (cStr (res.text .materailFormat))) < 36) := by
  rw [InTables, httpToInternal_isSome, internalToHttp, Option.isSome_map, adType_isSome]

/-- A slot that excludes a negative type. -/
def negative : BesRequest where
  adslot := [{ adslotType := some 0, creativeType := [-1] }]

/-- A response with a format of its own. -/
def formatted (format : Bytes) : AdRtbResponse :=
  { AdRtbResponse.clear with
    text := Function.update AdRtbResponse.clear.text .materailFormat format }

theorem formatted_text (format : Bytes) : (formatted format).text .materailFormat = format := by
  simp only [formatted, Function.update_self]

theorem outside_tables :
    ¬ InTables (fun _ => []) (fun _ _ => ([], [])) (fun _ => true) (some negative)
        (AdRtbRequest.clear ⟨0, 0⟩) (formatted (ascii "1")) ∧
      ¬ InTables (fun _ => []) (fun _ _ => ([], [])) (fun _ => true) none
        (AdRtbRequest.clear ⟨0, 0⟩) (formatted (ascii "9")) := by
  constructor
  · rintro ⟨request, -⟩
    rw [httpToInternal_isSome] at request
    exact absurd (request (-1) List.mem_cons_self) (by decide)
  · rintro ⟨-, response⟩
    rw [internalToHttp, Option.isSome_map, adType_isSome, formatted_text] at response
    exact response (by decide)

end BaiduTables
