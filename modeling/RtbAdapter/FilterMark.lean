import RtbAdapter.FilterTables
import RtbAdapter.NetProtocol

/-!
# The filter for marks and audiences

Keywords of orders are kept in a tree of patterns that is walked from every
position of a user's mark; audiences are found by the beginnings of a mark.
What the user service answers is arbitrary.
-/

namespace FilterMark

open ByteWords CText PlanningUnit RtbBase FilterTables Std
open NetProtocol (adSuccess adFailure)

structure AdMarkInfo where
  type : UInt32
  key : Bytes
  data : Nat

/-- A node is named by the lower case letters that lead to it from the root; the nodes
below the root are listed. The marks that end at a node are kept under its name, and
`minPtnSize` is the length of the shortest one. -/
structure AdAcbmTree where
  root : Bool := false
  minPtnSize : Nat := 512
  nodes : List Bytes := []
  data : AdMap AdMarkInfo := []

/-- `AdAcbmTreeAdd`: an empty pattern is an error that clears the tree. -/
def AdAcbmTree.add (tree : AdAcbmTree) (mark : AdMarkInfo) : Int × AdAcbmTree :=
  if mark.key = [] then (adFailure, {})
  else
    let path := mark.key.map tolower
    (adSuccess,
      { root := true, minPtnSize := min path.length tree.minPtnSize,
        nodes := tree.nodes ++ (path.inits.filter fun node => node ≠ []),
        data := tree.data ++ [(path, mark)] })

/-- The way down from a node along a text, with the marks of the nodes passed. -/
def AdAcbmTree.walk (tree : AdAcbmTree) : Bytes → Bytes → List AdMarkInfo
  | _, [] => []
  | node, b :: text =>
    let node := node ++ [tolower b]
    if node ∈ tree.nodes then tree.data.find node ++ tree.walk node text else []

/-- `AdAcbmSearch`. The shift tables are never built, so that it tries every position;
without a root it follows a null pointer. -/
def AdAcbmTree.search (tree : AdAcbmTree) (text : Bytes) : Option (List AdMarkInfo) :=
  if text.length < tree.minPtnSize then some []
  else if !tree.root then none
  else some <| (List.range (text.length - tree.minPtnSize + 1)).reverse.flatMap fun base =>
    tree.walk [] (text.drop base)

structure AdAudienceInfo where
  type : UInt32 := 0
  effectiveTime : UInt32 := 0
  visitMask : UInt32 := 0
  visitMatch : UInt32 := 0
  unVisitMask : UInt32 := 0
  unVisitMatch : UInt32 := 0
  searchMask : UInt32 := 0
  searchMatch : UInt32 := 0
  data : Nat := 0

structure AdFilterMark where
  tree : AdAcbmTree := {}
  marks : List AdMarkInfo := []
  audience : AdMap AdAudienceInfo := []
  strMinLen : Nat := 0xffff
  strMaxLen : Nat := 0

def stripPrefix (head : String) (text : Bytes) : Bytes :=
  if (ascii head).isPrefixOf text then text.drop (ascii head).length else text

/-- A keyword without its stars and the scheme in front of it. -/
def adFilterMarkGetStr (text : Bytes) : Bytes :=
  stripPrefix "https://" (stripPrefix "http://" (text.filter fun b => b ≠ 42))

/-- `AdFilterMarkAddMark`: the first keyword that is not added ends the loop. -/
def addMarks (address : Nat) : List AdMarkNode → AdFilterMark → Int × AdFilterMark
  | [], filter => (adSuccess, filter)
  | node :: nodes, filter =>
    let mark : AdMarkInfo := ⟨node.type, adFilterMarkGetStr node.key, address⟩
    let (ret, tree) := filter.tree.add mark
    let filter := { filter with tree, marks := filter.marks ++ [mark] }
    if ret = adSuccess then addMarks address nodes filter else (ret, filter)

/-- One bit for each of the first 32 marks. -/
def markMask (marks : TreeMap Bytes UInt32) : UInt32 :=
  (List.range (min marks.size 32)).foldl (fun mask i => mask ||| (1 : UInt32) <<< UInt32.ofNat i) 0

/-- The entries of an audience, each with the masks of all three kinds and its own bit. -/
def audienceEntries (address : Nat) (node : AdAudienceNode) : List (Bytes × AdAudienceInfo) :=
  let info : AdAudienceInfo :=
    { type := node.type, searchMask := markMask node.search, visitMask := markMask node.visit,
      unVisitMask := markMask node.unVisit, data := address }
  let entries (marks : TreeMap Bytes UInt32) (own : AdAudienceInfo → UInt32 → AdAudienceInfo) :
      List (Bytes × AdAudienceInfo) :=
    ((marks.toList.take 32).zipIdx).map fun mark =>
      (mark.1.1, own { info with effectiveTime := mark.1.2 } (1 <<< UInt32.ofNat mark.2))
  entries node.search (fun info bit => { info with searchMatch := bit }) ++
    entries node.visit (fun info bit => { info with visitMatch := bit }) ++
    entries node.unVisit (fun info bit => { info with unVisitMatch := bit })

/-- `AdFilterMarkAddAudience`. The bounds of the key lengths start anew on an empty table. -/
def addAudience (placed : Allocated) (filter : AdFilterMark) : AdFilterMark :=
  let filter := if filter.audience = [] then { filter with strMinLen := 0xffff, strMaxLen := 0 }
    else filter
  let entries := placed.unit.audience.flatMap (audienceEntries placed.address)
  { filter with
    audience := filter.audience ++ entries
    strMinLen := entries.foldl (fun n entry => min n entry.1.length) filter.strMinLen
    strMaxLen := entries.foldl (fun n entry => max n entry.1.length) filter.strMaxLen }

/-- `AddData`. An order with an unusable keyword is not filed under its audiences. -/
def AdFilterMark.addData (filter : AdFilterMark) (placed : Allocated) : AdFilterMark :=
  let (ret, filter) := addMarks placed.address placed.unit.keyWord filter
  if ret = adSuccess then addAudience placed filter else filter

structure AdUserMark where
  mark : Bytes
  time : UInt32
  tag : UInt8

structure AdUserData where
  league : Bytes := []
  userID : Bytes := []
  userIE : Bytes := []
  userIP : Bytes := []
  userAg : Bytes := []
  executeID : Bytes := []
  marks : List AdUserMark := []
  audience : List AdUserMark := []

def adCacheTag : UInt8 := 7

/-- What the user service is asked for a request. -/
def userQuery (r : AdRtbRequest) : AdUserData where
  league := decimalUInt r.adx
  userID := r.text .userID
  userIE := r.text .userID
  userIP := r.text .userIP
  userAg := if flowOf r = adProtocolFlowMobile then [] else r.text .userAgent

/-- `AdUserInfoAddRequestMark` -/
def requestMark (crowd : Bytes) : AdUserMark := ⟨crowd, 1, adCacheTag⟩

def markFits (mark : AdUserMark) (info : AdMarkInfo) : Bool :=
  (info.type = adKeysAccCus && info.key.length = mark.mark.length) || info.type = adKeysDimCus ||
    (mark.tag = adCacheTag && (info.type = adMarkPublic || info.type = adMarkPrivate))

section Match

variable (unit : Nat → AdPlanningUnit)

/-- `AdFilterMarkMatchMark`. What was found for a mark without a fitting keyword is looked
at again with the next mark. -/
def matchMarks (tree : AdAcbmTree) (ready : List Nat) :
    List AdUserMark → List AdMarkInfo → AdResult → Option AdResult
  | [], _, result => some result
  | mark :: marks, found, result => do
    let found := found ++ (← tree.search mark.mark)
    let fitting := (found.filter (markFits mark)).map AdMarkInfo.data
    let merged := ready.filter fun address => address ∈ fitting
    if fitting = [] then
      matchMarks tree ready marks found result
    else
      matchMarks tree ready marks []
        (merged.foldl (fun r address => upsert unit id address r) result)

def mergeAudience (info : AdAudienceInfo) : List AdAudienceInfo → List AdAudienceInfo
  | [] => [info]
  | other :: rest =>
    if other.data = info.data then
      { info with
        effectiveTime := other.effectiveTime
        searchMatch := other.searchMatch ||| info.searchMatch
        visitMatch := other.visitMatch ||| info.visitMatch
        unVisitMatch := other.unVisitMatch ||| info.unVisitMatch } :: rest
    else other :: mergeAudience info rest

/-- The audiences found under the beginnings of the marks, joined for each order. -/
def foundAudience (filter : AdFilterMark) (marks : List AdUserMark) : List AdAudienceInfo :=
  (marks.flatMap fun mark =>
    ((List.range mark.mark.length).filter fun n =>
        filter.strMinLen ≤ n ∧ n ≤ filter.strMaxLen).flatMap fun n =>
      (filter.audience.find (mark.mark.take n)).filter fun info =>
        mark.time ≤ info.effectiveTime).foldl
    (fun found info => mergeAudience info found) []

def adAudienceMergeAnd : UInt32 := 1
def adAudienceMergeOr : UInt32 := 0

/-- The last alternative of an audience merged with "or" makes it hold always. -/
def audienceFits (info : AdAudienceInfo) : Bool :=
  if info.type = adAudienceMergeAnd then
    info.searchMask = info.searchMatch && info.visitMask = info.visitMatch &&
      info.unVisitMatch = 0
  else if info.type = adAudienceMergeOr then
    info.searchMatch ≠ 0 || info.unVisitMatch ≠ 0 || info.unVisitMatch = 0
  else false

/-- `AdFilterMarkMatchAudience` -/
def matchAudience (filter : AdFilterMark) (marks : List AdUserMark) (ready result : AdResult) :
    AdResult :=
  if ready = [] then result
  else ((foundAudience filter marks).filter fun info =>
      audienceFits info && present unit ready info.data).foldl
    (fun result info => upsert unit (fun _ => {}) info.data result) result

/-- `AdFilterMarkVipUserTag` -/
def vipUserTag (executeID : Bytes) (result : AdResult) : AdResult :=
  if executeID = [] then result
  else result.map fun entry =>
    if execId unit entry.1 = atoiUInt (cStr executeID) then (entry.1, { entry.2 with vip := true })
    else entry

def niceOf (entry : Nat × AdRtbFilterResult) : UInt32 := (unit entry.1).order.nice

/-- `AdFilterMark::match`. When the user is not known, the crowd categories of the request
stand in for his marks, and without them only the base orders are left. -/
def AdFilterMark.matchRequest (filter : AdFilterMark) (user : AdUserData → Option AdUserData)
    (now : Time) (r : AdRtbRequest) (result : AdResult) : Option AdResult :=
  let base := result.filter fun entry => niceOf unit entry = adOrderBase
  let nice := (result.filter fun entry => niceOf unit entry = adOrderNice).map Prod.fst
  let audience := result.filter fun entry => niceOf unit entry = adOrderAudience
  let known := user (userQuery r)
  if known.isNone ∧ r.list .crowdCategory = [] then some base
  else
    let data := known.getD { userQuery r with marks := (r.list .crowdCategory).map requestMark }
    if r.checkLife now then some []
    else do
      let marked ← if nice = [] then some base
        else matchMarks unit filter.tree nice data.marks [] base
      let result := matchAudience unit filter data.audience audience marked
      return if known.isSome then vipUserTag unit data.executeID result else result

end Match

end FilterMark
