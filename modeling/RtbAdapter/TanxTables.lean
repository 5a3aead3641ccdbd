import RtbAdapter.FileLines
import RtbAdapter.FilterTables
import RtbAdapter.JsonRoundTrip
import RtbAdapter.NetProtocol

/-!
# The tables of the Tanx filter

One file tells by a filter id what is excluded, and the other for which places a filter id holds,
and where and when. Both hold a JSON document a line. A place gets a copy of what its filter id
excludes when its line is read, after all of the first file. A line that fills the buffer is passed
over with the line behind it.
-/

namespace TanxTables

open Std (TreeMap)
open ByteWords CText FileLines FilterTables JsonReader JsonRoundTrip JsonValues JsonWriter
open NetProtocol (adSuccess adFailure)
open RtbBase (AdRtbRequest)

def lineMax : Nat := 8192 * 5

structure AdTanxContent where
  category : List Bytes := []
  landingPage : List Bytes := []
  creativeType : List Bytes := []
  advertise : List Bytes := []
  creativeLevel : List Bytes := []
  deriving DecidableEq

/-- What `add` appends to the five lists. -/
def AdTanxContent.add (content more : AdTanxContent) : AdTanxContent where
  category := content.category ++ more.category
  landingPage := content.landingPage ++ more.landingPage
  creativeType := content.creativeType ++ more.creativeType
  advertise := content.advertise ++ more.advertise
  creativeLevel := content.creativeLevel ++ more.creativeLevel

abbrev Contents := TreeMap Bytes AdTanxContent

/-- The numbers of a list, as `%d` prints them. -/
def numbers (value : JsonValue) : Option (List Bytes) := do
  (← value.items).mapM fun item => item.asInt.map fun iVal => snprintf 128 (decimal iVal)

/-- The filter id of a document; a document without one is not used. -/
def filterId (value : JsonValue) : Option (Option Bytes) := do
  if ← value.isMember "filter_id" then return some (← (← value.field "filter_id").asString)
  else return none

def content (value : JsonValue) : Option (Option (Bytes × AdTanxContent)) := do
  match ← filterId value with
  | none => return none
  | some sFilter =>
    let category ← value.optional "excluded_ad_category" [] numbers
    let landingPage ← value.optional "excluded_click_through_url" [] JsonValue.strings
    let creativeType ← value.optional "excluded_filter" [] numbers
    let advertise ← value.optional "excluded_brand_advertiser_id" [] JsonValue.strings
    let creativeLevel ← value.optional "included_adboard_level" [] JsonValue.strings
    return some (sFilter, ⟨category, landingPage, creativeType, advertise, creativeLevel⟩)

/-- What a line of the second file tells. -/
structure Description where
  sFilter : Bytes
  area : List Bytes
  interval : List Bytes
  pids : List Bytes
  deriving DecidableEq

def description (value : JsonValue) : Option (Option Description) := do
  match ← filterId value with
  | none => return none
  | some sFilter =>
    let area ← value.optional "include_area" [] numbers
    let interval ← value.optional "include_interval" [] numbers
    let pids ← value.optional "include_pid" [] JsonValue.strings
    return some ⟨sFilter, area, interval, pids⟩

def addContent (mContent : Contents) : Option (Bytes × AdTanxContent) → Contents
  | none => mContent
  | some (sFilter, more) => mContent.insert sFilter ((mContent.getD sFilter {}).add more)

/-- The categories are all of the content that a request asks for. -/
def addDescription (mContent : Contents) (mPidDes : AdMap AdTanxDescription) :
    Option Description → AdMap AdTanxDescription
  | none => mPidDes
  | some d => mPidDes ++ d.pids.map fun pid =>
      (pid, ⟨(mContent.getD d.sFilter {}).category, d.interval, d.area⟩)

variable (sscanf : Bytes → Option Rat)

/-- `ADFilterTanxParseContent` -/
def adFilterTanxParseContent (mContent : Contents) (sStr : Bytes) : Option Contents :=
  match parse sscanf (cStr sStr) with
  | .error _ => some mContent
  | .ok value => (content value).map (addContent mContent)

/-- `ADFilterTanxParseDescreption` -/
def adFilterTanxParseDescreption (mContent : Contents) (mPidDes : AdMap AdTanxDescription)
    (sStr : Bytes) : Option (AdMap AdTanxDescription) :=
  match parse sscanf (cStr sStr) with
  | .error _ => some mPidDes
  | .ok value => (description value).map (addDescription mContent mPidDes)

/-- The lines that a loop parses; `tail`: the end of a long line is read. -/
def parsedLines : Bool → List Bytes → List Bytes
  | _, [] => []
  | tail, line :: rest =>
    let sStr := cStr line
    if sStr.length ≥ lineMax - 1 then parsedLines true rest
    else if tail then parsedLines false rest
    else if sStr = ascii "^D" then []
    else sStr :: parsedLines false rest

def fileLines (file : Bytes) : List Bytes := parsedLines false (lines 10 (lineMax - 1) file)

def adFilterTanxInit (open' : Bytes → Option Bytes) (sFilter sDes : Bytes)
    (mPidDes : AdMap AdTanxDescription) : Option (Int × AdMap AdTanxDescription) :=
  if sFilter = [] ∨ sDes = [] then some (adFailure, mPidDes)
  else
    match open' (cStr sFilter) with
    | none => some (adFailure, mPidDes)
    | some file => do
      let mContent ← (fileLines file).foldlM (adFilterTanxParseContent sscanf) ∅
      match open' (cStr sDes) with
      | none => some (adFailure, mPidDes)
      | some file =>
        let mPidDes ← (fileLines file).foldlM (adFilterTanxParseDescreption sscanf mContent) mPidDes
        return (adSuccess, mPidDes)

variable {sscanf} {sprintf : Rat → Bytes}

theorem quoteChar_visible : ∀ c : UInt8, c ≠ 0 → ∀ b ∈ quoteChar c, 32 ≤ b := by
  have each : ∀ c : UInt8, c ≠ 0 → (quoteChar c).all fun b => 32 ≤ b :=
    forall_byte (by decide +kernel)
  exact fun c other b inside => of_decide_eq_true (List.all_eq_true.mp (each c other) b inside)

theorem quoted_visible (s : Bytes) : ∀ b ∈ valueToQuotedString s, 32 ≤ b := by
  intro b inside
  rw [valueToQuotedString_eq] at inside
  rcases List.mem_append.mp inside with inside | quote
  · rcases List.mem_append.mp inside with quote | inside
    · rw [List.mem_singleton.mp quote]
      decide
    · obtain ⟨c, listed, inside⟩ := List.mem_flatMap.mp inside
      exact quoteChar_visible c (fun zero => cStr_clean s (zero ▸ listed)) b inside
  · rw [List.mem_singleton.mp quote]
    decide

theorem numberChar_visible : ∀ c : UInt8, isNumberChar c = true → 32 ≤ c :=
  forall_byte (by decide +kernel)

mutual

theorem writeValue_visible (doubles : Doubles sprintf sscanf) (value : JsonValue)
    (valid : Valid value) : ∀ b ∈ writeValue sprintf value, 32 ≤ b := by
  have number (isNumber' : isNumber value = true) (range : InRange value) :
      ∀ b ∈ writeValue sprintf value, 32 ≤ b := fun b inside =>
    numberChar_visible b ((decodes_doubles doubles value isNumber' range).1.chars b inside)
  match value with
  | .null => exact (by decide +kernel : ∀ b ∈ ascii "null", 32 ≤ b)
  | .int n => exact number rfl valid
  | .uint n => exact number rfl valid
  | .real x => exact number rfl trivial
  | .string s => exact quoted_visible s
  | .bool true => exact (by decide +kernel : ∀ b ∈ ascii "true", 32 ≤ b)
  | .bool false => exact (by decide +kernel : ∀ b ∈ ascii "false", 32 ≤ b)
  | .array items =>
    intro b inside
    rw [Valid, Formed] at valid
    rw [writeValue] at inside
    rcases List.mem_append.mp inside with inside | close
    · rcases List.mem_append.mp inside with opened | inside
      · rw [List.mem_singleton.mp opened]
        decide
      · exact writeItems_visible doubles items valid b inside
    · rw [List.mem_singleton.mp close]
      decide
  | .object members =>
    intro b inside
    rw [Valid, Formed] at valid
    rw [writeValue] at inside
    rcases List.mem_append.mp inside with inside | close
    · rcases List.mem_append.mp inside with opened | inside
      · rw [List.mem_singleton.mp opened]
        decide
      · exact writeMembers_visible doubles members valid.2 b inside
    · rw [List.mem_singleton.mp close]
      decide

theorem writeItems_visible (doubles : Doubles sprintf sscanf) (items : List JsonValue)
    (valid : FormedItems InRange items) : ∀ b ∈ writeItems sprintf items, 32 ≤ b := by
  match items with
  | [] => exact nofun
  | item :: rest =>
    intro b inside
    rw [FormedItems] at valid
    rw [writeItems] at inside
    rcases List.mem_append.mp inside with inside | later
    · rcases List.mem_append.mp inside with here | comma
      · exact writeValue_visible doubles item valid.1 b here
      · split_ifs at comma
        · cases comma
        · rw [List.mem_singleton.mp comma]
          decide
    · exact writeItems_visible doubles rest valid.2 b later

theorem writeMembers_visible (doubles : Doubles sprintf sscanf) (members : List (Bytes × JsonValue))
    (valid : FormedMembers InRange members) : ∀ b ∈ writeMembers sprintf members, 32 ≤ b := by
  match members with
  | [] => exact nofun
  | (name, value) :: rest =>
    intro b inside
    rw [FormedMembers, FormedMember] at valid
    rw [writeMembers, writeMember] at inside
    rcases List.mem_append.mp inside with inside | later
    · rcases List.mem_append.mp inside with here | comma
      · rcases List.mem_append.mp here with named | here
        · rcases List.mem_append.mp named with named | colon
          · exact quoted_visible name b named
          · rw [List.mem_singleton.mp colon]
            decide
        · exact writeValue_visible doubles value valid.1 b here
      · split_ifs at comma
        · cases comma
        · rw [List.mem_singleton.mp comma]
          decide
    · exact writeMembers_visible doubles rest valid.2 b later

end

/-- A document that fits the buffer, with the end of its line. -/
structure Line (sprintf : Rat → Bytes) (value : JsonValue) : Prop where
  valid : Valid value
  short : (write sprintf value).length < lineMax - 1

/-- Documents are parsed one by one. -/
theorem fileLines_documents (doubles : Doubles sprintf sscanf) (values : List JsonValue)
    (all : ∀ value ∈ values, Line sprintf value) :
    fileLines (values.flatMap (write sprintf)) = values.map (write sprintf) := by
  have clean (value : JsonValue) (line : Line sprintf value) (b : UInt8) (control : b < 32) :
      b ∉ writeValue sprintf value := fun inside =>
    absurd (writeValue_visible doubles value line.valid b inside) (UInt8.not_le.mpr control)
  have fit : ∀ text ∈ values.map (writeValue sprintf), 10 ∉ text ∧ text.length < lineMax - 1 := by
    intro text inside
    obtain ⟨value, listed, rfl⟩ := List.mem_map.mp inside
    have short := (all value listed).short
    rw [write, List.length_append] at short
    exact ⟨clean value (all value listed) 10 (by decide), by omega⟩
  have whole := @lines_lines _ _ (10 : UInt8) _ _ fit []
  rw [List.append_nil, List.flatMap_map, lines_nil, List.append_nil, List.map_map] at whole
  rw [fileLines]
  change parsedLines false (lines 10 (lineMax - 1)
    (values.flatMap fun value => writeValue sprintf value ++ [10])) = _
  rw [whole]
  clear whole fit
  induction values with
  | nil => rfl
  | cons value values ih =>
    obtain ⟨line, all⟩ := List.forall_mem_cons.mp all
    have same : cStr (write sprintf value) = write sprintf value := by
      refine cStr_eq_self fun zero => ?_
      rcases List.mem_append.mp zero with zero | zero
      · exact clean value line 0 (by decide) zero
      · exact absurd (List.mem_singleton.mp zero) (by decide)
    have other : write sprintf value ≠ ascii "^D" := fun end' => by
      have last : (10 : UInt8) ∈ ascii "^D" := end' ▸ by simp [write]
      exact absurd last (by decide)
    rw [List.map_cons, List.map_cons, parsedLines]
    change (if (cStr (write sprintf value)).length ≥ lineMax - 1 then _ else
      if false = true then _ else if cStr (write sprintf value) = ascii "^D" then _ else _) = _
    rw [same, if_neg (not_le.mpr line.short), if_neg Bool.false_ne_true, if_neg other, ih all]
    exact congrArg (· :: _) same

theorem parse_line (doubles : Doubles sprintf sscanf) {value : JsonValue}
    (line : Line sprintf value) :
    parse sscanf (cStr (write sprintf value)) = .ok (readBack (back sprintf sscanf) value) := by
  have clean : 0 ∉ write sprintf value := by
    intro zero
    rcases List.mem_append.mp zero with zero | zero
    · exact absurd (writeValue_visible doubles value line.valid 0 zero) (by decide)
    · exact absurd (List.mem_singleton.mp zero) (by decide)
  have whole := parseWith_write (decodes_doubles doubles) line.valid []
  rwa [List.append_nil, ← cStr_eq_self clean] at whole

/-- A loop over documents does what each of them tells. -/
theorem foldlM_documents {σ α : Type} (doubles : Doubles sprintf sscanf)
    (tells : JsonValue → Option α)
    (add : σ → α → σ) (values : List JsonValue) (all : ∀ value ∈ values, Line sprintf value)
    {said : List α} (read : (values.map (readBack (back sprintf sscanf))).mapM tells = some said)
    (s : σ) : (values.map (write sprintf)).foldlM (fun s sStr =>
      match parse sscanf (cStr sStr) with
      | .error _ => some s
      | .ok value => (tells value).map (add s)) s = some (said.foldl add s) := by
  induction values generalizing s said with
  | nil =>
    cases read
    rfl
  | cons value values ih =>
    obtain ⟨line, all⟩ := List.forall_mem_cons.mp all
    obtain ⟨one, rest, here, later, rfl⟩ := mapM_cons_eq_some.mp read
    rw [List.map_cons, List.foldlM_cons, parse_line doubles line]
    simp only [here, Option.map_some, Option.bind_eq_bind, Option.bind_some, List.foldl_cons]
    exact ih all later _

/-- The categories that a filter id excludes. -/
def excluded (contents : List (Option (Bytes × AdTanxContent))) (sFilter : Bytes) : List Bytes :=
  (contents.filterMap id).flatMap fun c => if c.1 = sFilter then c.2.category else []

theorem addContent_category (contents : List (Option (Bytes × AdTanxContent))) (m : Contents)
    (sFilter : Bytes) : ((contents.foldl addContent m).getD sFilter {}).category =
      (m.getD sFilter {}).category ++ excluded contents sFilter := by
  induction contents generalizing m with
  | nil => simp [excluded]
  | cons c contents ih =>
    rw [List.foldl_cons, ih]
    cases c with
    | none => rfl
    | some c =>
      rw [addContent, TreeMap.getD_insert]
      by_cases same : c.1 = sFilter
      · subst same
        simp [excluded, AdTanxContent.add]
      · simp [excluded, same]

/-- The descriptions of the places. -/
def placed (contents : List (Option (Bytes × AdTanxContent))) (d : Description) :
    AdMap AdTanxDescription :=
  d.pids.map fun pid => (pid, ⟨excluded contents d.sFilter, d.interval, d.area⟩)

theorem addDescription_foldl (contents : List (Option (Bytes × AdTanxContent)))
    (descriptions : List (Option Description)) (mPidDes : AdMap AdTanxDescription) :
    descriptions.foldl (addDescription (contents.foldl addContent ∅)) mPidDes =
      mPidDes ++ (descriptions.filterMap id).flatMap (placed contents) := by
  induction descriptions generalizing mPidDes with
  | nil => simp
  | cons d descriptions ih =>
    rw [List.foldl_cons, ih]
    cases d with
    | none => rfl
    | some d =>
      have category := addContent_category contents ∅ d.sFilter
      rw [TreeMap.getD_emptyc, List.nil_append] at category
      simp [addDescription, placed, category]

theorem mem_tanxAsks {descriptions : AdMap AdTanxDescription} {r : AdRtbRequest}
    (tanx : r.adx = adProtocolKeyAdxTanx) {ask : Bytes} :
    ask ∈ tanxAsks descriptions r ↔ ∃ d, (r.text .pId, d) ∈ descriptions ∧
      (d.area = [] ∧ d.interval = []) ∧
        ∃ category ∈ d.category, ask = categoryAsk r.adx category := by
  rw [tanxAsks, if_pos tanx, List.mem_flatMap]
  simp only [AdMap.find, List.mem_filter, List.mem_map, decide_eq_true_eq]
  constructor
  · rintro ⟨d, ⟨⟨⟨pid, _⟩, ⟨inside, rfl⟩, rfl⟩, always⟩, category, listed, rfl⟩
    exact ⟨_, inside, always, category, listed, rfl⟩
  · rintro ⟨d, inside, always, category, listed, rfl⟩
    exact ⟨d, ⟨⟨_, ⟨inside, rfl⟩, rfl⟩, always⟩, category, listed, rfl⟩

/-- With both files written a document a line, a place of Tanx is asked for the categories that its
filter ids exclude, those aside that hold somewhere or sometimes only. -/
theorem tanx_asked (doubles : Doubles sprintf sscanf) {cs ds : List JsonValue}
    (linesC : ∀ value ∈ cs, Line sprintf value) (linesD : ∀ value ∈ ds, Line sprintf value)
    {contents : List (Option (Bytes × AdTanxContent))} {descriptions : List (Option Description)}
    (readC : (cs.map (readBack (back sprintf sscanf))).mapM content = some contents)
    (readD : (ds.map (readBack (back sprintf sscanf))).mapM description = some descriptions)
    {open' : Bytes → Option Bytes} {sFilter sDes : Bytes} (named : sFilter ≠ [] ∧ sDes ≠ [])
    (there : open' (cStr sFilter) = some (cs.flatMap (write sprintf)))
    (there' : open' (cStr sDes) = some (ds.flatMap (write sprintf))) :
    ∃ mPidDes, adFilterTanxInit sscanf open' sFilter sDes [] = some (adSuccess, mPidDes) ∧
      ∀ r : AdRtbRequest, r.adx = adProtocolKeyAdxTanx → ∀ ask,
        ask ∈ tanxAsks mPidDes r ↔ ∃ d ∈ descriptions.filterMap id, ∃ c ∈ contents.filterMap id,
          (d.area = [] ∧ d.interval = []) ∧ r.text .pId ∈ d.pids ∧ c.1 = d.sFilter ∧
          ∃ category ∈ c.2.category, ask = categoryAsk r.adx category := by
  refine ⟨(descriptions.filterMap id).flatMap (placed contents), ?_, fun r tanx ask => ?_⟩
  · have first := foldlM_documents doubles content addContent cs linesC readC ∅
    have second := foldlM_documents doubles description
      (addDescription (contents.foldl addContent ∅)) ds linesD readD []
    rw [addDescription_foldl, List.nil_append] at second
    rw [adFilterTanxInit, if_neg (not_or.mpr named), there]
    simp only [fileLines_documents doubles cs linesC, fileLines_documents doubles ds linesD, there']
    exact (congrArg (Option.bind · _) first).trans (congrArg (Option.bind · _) second)
  · rw [mem_tanxAsks tanx]
    simp only [List.mem_flatMap, placed, List.mem_map, Prod.mk.injEq, excluded]
    constructor
    · rintro ⟨_, ⟨d, listed, pid, inside, rfl, rfl⟩, always, category, among, rfl⟩
      obtain ⟨c, listed', among⟩ := List.mem_flatMap.mp among
      split_ifs at among with same
      · exact ⟨d, listed, c, listed', always, inside, same, category, among, rfl⟩
      · cases among
    · rintro ⟨d, listed, c, listed', always, inside, same, category, among, rfl⟩
      have among : category ∈ excluded contents d.sFilter := by
        refine List.mem_flatMap.mpr ⟨c, listed', ?_⟩
        rwa [if_pos same]
      exact ⟨_, ⟨d, listed, _, inside, rfl, rfl⟩, always, category, among, rfl⟩

/-- What the filter id of the example excludes. -/
def exampleContent : JsonValue :=
  .object [(ascii "excluded_ad_category", .array [.int 7]), (ascii "filter_id", .string [102])]

/-- The place of the example. -/
def exampleDescription : JsonValue :=
  .object [(ascii "filter_id", .string [102]), (ascii "include_pid", .array [.string [112]])]

theorem tanx_asked_example :
    let open' : Bytes → Option Bytes := fun name =>
      some (write (fun _ => half) (if name = [99] then exampleContent else exampleDescription))
    ∃ mPidDes, adFilterTanxInit scanHalf open' [99] [100] [] = some (adSuccess, mPidDes) ∧
      ∀ r : AdRtbRequest, r.adx = adProtocolKeyAdxTanx → r.text .pId = [112] →
        categoryAsk r.adx [55] ∈ tanxAsks mPidDes r := by
  intro open'
  have readC : ([exampleContent].map (readBack (back (fun _ => half) scanHalf))).mapM content =
      some [some ([102], { category := [[55]] })] := by
    rw [List.map_singleton, exampleContent]
    simp only [readBack, backMembers, backMember, backItems, back]
    decide
  have readD : ([exampleDescription].map (readBack (back (fun _ => half) scanHalf))).mapM
      description = some [some ⟨[102], [], [], [[112]]⟩] := by
    rw [List.map_singleton, exampleDescription]
    simp only [readBack, backMembers, backMember, backItems]
    decide
  have lineC : ∀ value ∈ [exampleContent], Line (fun _ => half) value := by
    have short : (write (fun _ => half) exampleContent).length = 45 := by
      have seven : intToString 7 = [55] := intToString_eq (by decide) (by decide)
      simp only [write, exampleContent, writeValue, writeMembers, writeMember, writeItems,
        reduceCtorEq, if_false, if_true, seven]
      decide
    refine List.forall_mem_singleton.mpr ⟨?_, short ▸ by decide⟩
    rw [exampleContent, Valid, Formed]
    exact ⟨⟨by decide, by decide⟩, ⟨⟨by decide, by decide⟩, trivial⟩, trivial, trivial⟩
  have lineD : ∀ value ∈ [exampleDescription], Line (fun _ => half) value := by
    refine List.forall_mem_singleton.mpr ⟨?_, by decide⟩
    rw [exampleDescription, Valid, Formed]
    exact ⟨⟨by decide, by decide⟩, trivial, ⟨trivial, trivial⟩, trivial⟩
  have there : open' (cStr [99]) = some ([exampleContent].flatMap (write fun _ => half)) := by
    simp [open', cStr]
  have there' : open' (cStr [100]) = some ([exampleDescription].flatMap (write fun _ => half)) := by
    simp [open', cStr]
  obtain ⟨mPidDes, loaded, asked⟩ := tanx_asked doubles_half lineC lineD readC readD
    ⟨by decide, by decide⟩ there there'
  refine ⟨mPidDes, loaded, fun r tanx place => (asked r tanx _).mpr ?_⟩
  exact ⟨_, List.mem_singleton_self _, _, List.mem_singleton_self _, ⟨rfl, rfl⟩,
    place ▸ List.mem_singleton_self _, rfl, _, List.mem_singleton_self _, rfl⟩

end TanxTables
