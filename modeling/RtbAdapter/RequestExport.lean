import Mathlib.Tactic
import RtbAdapter.JsonValues
import RtbAdapter.KeyedFields
import RtbAdapter.NetProtocol

/-!
# The request that the exchange exports

Each class writes its members into the members of a JSON object. The text of a request says
what was written and nothing else: the id of the request and the referrer are not written,
and numbers below zero and what follows a NUL are left out.
-/

namespace RequestExport

open ByteWords CText JsonValues KeyedFields
open NetProtocol (adFailure)

/-- `json[name] = value`. The object is made when the value is null. -/
def put (json : JsonValue) (field : Bytes × Option JsonValue) : JsonValue :=
  match field.2, json with
  | none, _ => json
  | some value, .null => .object (set field.1 value [])
  | some value, .object members => .object (set field.1 value members)
  | some _, _ => json

/-- The writers of a class, in the order of the source. -/
def putAll (json : JsonValue) (fields : List (Bytes × Option JsonValue)) : JsonValue :=
  fields.foldl put json

/-- `Value::empty`. -/
def empty : JsonValue → Bool
  | .null => true
  | .array items => items.isEmpty
  | .object members => members.isEmpty
  | _ => false

/-- `Value::clear`, which keeps the kind. -/
def clear : JsonValue → JsonValue
  | .array _ => .array []
  | .object _ => .object []
  | json => json

/-- A member that is written under a condition. -/
def field (name : String) (present : Prop) [Decidable present] (value : JsonValue) :
    Bytes × Option JsonValue :=
  (ascii name, if present then some value else none)

/-- A text is copied up to its first NUL. -/
def tojsonString (name : String) (str : Bytes) : Bytes × Option JsonValue :=
  field name (str ≠ []) (.string (cStr str))

def tojsonObject (name : String) (sObj : JsonValue) : Bytes × Option JsonValue :=
  field name (empty sObj = false) sObj

def tojsonArrayString (name : String) (array : List Bytes) : Bytes × Option JsonValue :=
  field name (array ≠ []) (.array (array.map fun str => .string (cStr str)))

def tojsonArrayInt (name : String) (array : List Int) : Bytes × Option JsonValue :=
  field name (array ≠ []) (.array (array.map .int))

def tojsonInt (name : String) (num : Int) : Bytes × Option JsonValue :=
  field name (0 ≤ num) (.int num)

def tojsonFloat (name : String) (num : Rat) : Bytes × Option JsonValue :=
  field name (0 < num) (.real num)

@[ext]
structure AdRtbVideo where
  mimes : List Bytes := []
  linearity : Int := adFailure
  minDuration : Int := adFailure
  maxDuration : Int := adFailure
  width : Int := adFailure
  height : Int := adFailure
  pos : Int := adFailure

def AdRtbVideo.toJson (v : AdRtbVideo) (sJson : JsonValue) : JsonValue :=
  putAll sJson [tojsonInt "w" v.width, tojsonInt "h" v.height, tojsonInt "pos" v.pos,
    tojsonInt "linearity" v.linearity, tojsonInt "minduration" v.minDuration,
    tojsonInt "maxduration" v.maxDuration, tojsonArrayString "mimes" v.mimes]

@[ext]
structure AdRtbBanner where
  width : Int := adFailure
  height : Int := adFailure
  pos : Int := adFailure
  bType : List Int := []

def AdRtbBanner.toJson (b : AdRtbBanner) (sJson : JsonValue) : JsonValue :=
  putAll sJson [tojsonInt "w" b.width, tojsonInt "h" b.height, tojsonInt "pos" b.pos,
    tojsonArrayInt "btype" b.bType]

@[ext]
structure AdRtbImp where
  id : Bytes := []
  tagId : Bytes := []
  bidFloor : Rat := 0
  banner : AdRtbBanner := {}
  video : AdRtbVideo := {}

def AdRtbImp.toJson (i : AdRtbImp) (sJson : JsonValue) : JsonValue :=
  putAll sJson [tojsonString "id" i.id, tojsonString "tagid" i.tagId,
    tojsonFloat "bidfloor" i.bidFloor, tojsonObject "banner" (i.banner.toJson .null),
    tojsonObject "video" (i.video.toJson .null)]

@[ext]
structure AdRtbSiteContent where
  title : Bytes := []
  cat : List Bytes := []
  url : Bytes := []
  keywords : Bytes := []

def AdRtbSiteContent.toJson (c : AdRtbSiteContent) (sJson : JsonValue) : JsonValue :=
  putAll sJson [tojsonString "title" c.title, tojsonString "url" c.url,
    tojsonString "keywords" c.keywords, tojsonArrayString "cat" c.cat]

@[ext]
structure AdRtbSite where
  name : Bytes := []
  page : Bytes := []
  refer : Bytes := []
  cat : List Bytes := []
  content : AdRtbSiteContent := {}

/-- The referrer is not written. -/
def AdRtbSite.toJson (s : AdRtbSite) (sJson : JsonValue) : JsonValue :=
  putAll sJson [tojsonString "name" s.name, tojsonString "page" s.page,
    tojsonArrayString "cat" s.cat, tojsonObject "content" (s.content.toJson .null)]

@[ext]
structure AdRtbGeo where
  lat : Rat := 0
  lon : Rat := 0

def AdRtbGeo.toJson (g : AdRtbGeo) (sJson : JsonValue) : JsonValue :=
  putAll sJson [tojsonFloat "lat" g.lat, tojsonFloat "lon" g.lon]

@[ext]
structure AdRtbDevice where
  userAgent : Bytes := []
  ip : Bytes := []
  geo : AdRtbGeo := {}
  didmd5 : Bytes := []
  dpidmd5 : Bytes := []
  make : Bytes := []
  model : Bytes := []
  os : Bytes := []
  osv : Bytes := []
  language : Bytes := []
  jsEnable : Int := 0
  connectionType : Int := adFailure
  deviceType : Int := adFailure

def AdRtbDevice.toJson (d : AdRtbDevice) (sJson : JsonValue) : JsonValue :=
  putAll sJson [tojsonString "ua" d.userAgent, tojsonString "ip" d.ip,
    tojsonObject "geo" (d.geo.toJson .null), tojsonString "didmd5" d.didmd5,
    tojsonString "dpidmd5" d.dpidmd5, tojsonString "make" d.make, tojsonString "model" d.model,
    tojsonString "os" d.os, tojsonString "osv" d.osv, tojsonString "language" d.language,
    tojsonInt "js" d.jsEnable, tojsonInt "connectiontype" d.connectionType,
    tojsonInt "devicetype" d.deviceType]

@[ext]
structure AdRtbUser where
  id : Bytes := []
  keywords : Bytes := []

def AdRtbUser.toJson (u : AdRtbUser) (sJson : JsonValue) : JsonValue :=
  putAll sJson [tojsonString "id" u.id, tojsonString "keywords" u.keywords]

@[ext]
structure AdRtbApp where
  name : Bytes := []
  bundle : Bytes := []
  content : AdRtbSiteContent := {}
  cat : List Bytes := []

def AdRtbApp.toJson (a : AdRtbApp) (sJson : JsonValue) : JsonValue :=
  putAll sJson [tojsonString "name" a.name, tojsonString "bundle" a.bundle,
    tojsonObject "content" (a.content.toJson .null), tojsonArrayString "cat" a.cat]

@[ext]
structure AdRtbRequest where
  id : Bytes := []
  imp : List AdRtbImp := []
  site : AdRtbSite := {}
  device : AdRtbDevice := {}
  user : AdRtbUser := {}
  app : AdRtbApp := {}

/-- One value is used for every impression, and cleared in between. -/
def impsToJson : List AdRtbImp → JsonValue → List JsonValue
  | [], _ => []
  | imp :: array, sTemp => imp.toJson sTemp :: impsToJson array (clear (imp.toJson sTemp))

def tojsonArrayImp (name : String) (array : List AdRtbImp) : Bytes × Option JsonValue :=
  field name (array ≠ []) (.array (impsToJson array .null))

/-- The id of the request is not written. -/
def AdRtbRequest.toJson (r : AdRtbRequest) (sJson : JsonValue) : JsonValue :=
  putAll sJson [tojsonObject "site" (r.site.toJson .null),
    tojsonObject "device" (r.device.toJson .null), tojsonObject "user" (r.user.toJson .null),
    tojsonObject "app" (r.app.toJson .null), tojsonArrayImp "imp" r.imp]

/-- The same, or both below zero. -/
def AlikeInt (m n : Int) : Prop := m = n ∨ (m < 0 ∧ n < 0)

/-- The same, or none above zero. -/
def AlikeFloat (x y : Rat) : Prop := x = y ∨ (x ≤ 0 ∧ y ≤ 0)

/-- The same bytes before the first NUL. The empty text is told from one that starts with it. -/
def AlikeText (s t : Bytes) : Prop := (s = [] ↔ t = []) ∧ cStr s = cStr t

def AlikeTexts (s t : List Bytes) : Prop := s.map cStr = t.map cStr

@[mk_iff]
structure AdRtbVideo.Alike (a b : AdRtbVideo) : Prop where
  width : AlikeInt a.width b.width
  height : AlikeInt a.height b.height
  pos : AlikeInt a.pos b.pos
  linearity : AlikeInt a.linearity b.linearity
  minDuration : AlikeInt a.minDuration b.minDuration
  maxDuration : AlikeInt a.maxDuration b.maxDuration
  mimes : AlikeTexts a.mimes b.mimes

@[mk_iff]
structure AdRtbBanner.Alike (a b : AdRtbBanner) : Prop where
  width : AlikeInt a.width b.width
  height : AlikeInt a.height b.height
  pos : AlikeInt a.pos b.pos
  bType : a.bType = b.bType

@[mk_iff]
structure AdRtbImp.Alike (a b : AdRtbImp) : Prop where
  id : AlikeText a.id b.id
  tagId : AlikeText a.tagId b.tagId
  bidFloor : AlikeFloat a.bidFloor b.bidFloor
  banner : a.banner.Alike b.banner
  video : a.video.Alike b.video

@[mk_iff]
structure AdRtbSiteContent.Alike (a b : AdRtbSiteContent) : Prop where
  title : AlikeText a.title b.title
  url : AlikeText a.url b.url
  keywords : AlikeText a.keywords b.keywords
  cat : AlikeTexts a.cat b.cat

/-- The referrers are any. -/
@[mk_iff]
structure AdRtbSite.Alike (a b : AdRtbSite) : Prop where
  name : AlikeText a.name b.name
  page : AlikeText a.page b.page
  cat : AlikeTexts a.cat b.cat
  content : a.content.Alike b.content

@[mk_iff]
structure AdRtbGeo.Alike (a b : AdRtbGeo) : Prop where
  lat : AlikeFloat a.lat b.lat
  lon : AlikeFloat a.lon b.lon

@[mk_iff]
structure AdRtbDevice.Alike (a b : AdRtbDevice) : Prop where
  userAgent : AlikeText a.userAgent b.userAgent
  ip : AlikeText a.ip b.ip
  geo : a.geo.Alike b.geo
  didmd5 : AlikeText a.didmd5 b.didmd5
  dpidmd5 : AlikeText a.dpidmd5 b.dpidmd5
  make : AlikeText a.make b.make
  model : AlikeText a.model b.model
  os : AlikeText a.os b.os
  osv : AlikeText a.osv b.osv
  language : AlikeText a.language b.language
  jsEnable : AlikeInt a.jsEnable b.jsEnable
  connectionType : AlikeInt a.connectionType b.connectionType
  deviceType : AlikeInt a.deviceType b.deviceType

@[mk_iff]
structure AdRtbUser.Alike (a b : AdRtbUser) : Prop where
  id : AlikeText a.id b.id
  keywords : AlikeText a.keywords b.keywords

@[mk_iff]
structure AdRtbApp.Alike (a b : AdRtbApp) : Prop where
  name : AlikeText a.name b.name
  bundle : AlikeText a.bundle b.bundle
  content : a.content.Alike b.content
  cat : AlikeTexts a.cat b.cat

/-- The ids are any. -/
@[mk_iff]
structure AdRtbRequest.Alike (a b : AdRtbRequest) : Prop where
  site : a.site.Alike b.site
  device : a.device.Alike b.device
  user : a.user.Alike b.user
  app : a.app.Alike b.app
  imp : List.Forall₂ AdRtbImp.Alike a.imp b.imp

/-- A value that a writer may start with: nothing is in it. -/
inductive Bare : JsonValue → Prop
  | null : Bare .null
  | object : Bare (.object [])

/-- A value that a writer leaves. -/
inductive Written : JsonValue → Prop
  | null : Written .null
  | object (members : List (Bytes × JsonValue)) : Written (.object members)

def members : JsonValue → List (Bytes × JsonValue)
  | .object members => members
  | _ => []

variable {json : JsonValue} {fields fields' : List (Bytes × Option JsonValue)} {name : String}

theorem Bare.written (bare : Bare json) : Written json := by
  cases bare with
  | null => exact .null
  | object => exact .object []

theorem Bare.members_eq (bare : Bare json) : members json = [] := by
  cases bare <;> rfl

theorem Written.put (written : Written json) (field : Bytes × Option JsonValue) :
    Written (put json field) ∧ members (put json field) = KeyedFields.put (members json) field := by
  obtain ⟨name, value⟩ := field
  cases value with
  | none => exact ⟨written, rfl⟩
  | some value =>
    cases written with
    | null => exact ⟨.object _, rfl⟩
    | object members => exact ⟨.object _, rfl⟩

theorem Written.putAll (written : Written json) (fields : List (Bytes × Option JsonValue)) :
    Written (putAll json fields) ∧
      members (putAll json fields) = KeyedFields.putAll (members json) fields := by
  induction fields generalizing json with
  | nil => exact ⟨written, rfl⟩
  | cons field rest ih =>
    obtain ⟨next, same⟩ := written.put field
    obtain ⟨done, all⟩ := ih next
    exact ⟨done, all.trans (by rw [same]; rfl)⟩

theorem Written.clear (written : Written json) : Bare (clear json) := by
  cases written with
  | null => exact .null
  | object members => exact .object

/-- Two records under the same distinct names. -/
theorem putAll_eq_iff (bare : Bare json) (names : List String) (apart : (names.map ascii).Nodup)
    (named : fields.map Prod.fst = names.map ascii)
    (named' : fields'.map Prod.fst = names.map ascii) :
    putAll json fields = putAll json fields' ↔ fields = fields' := by
  refine ⟨fun same => putAll_inj (named.trans named'.symm) (named ▸ apart) ?_, congrArg _⟩
  have inside := congrArg members same
  rwa [(bare.written.putAll fields).2, (bare.written.putAll fields').2, bare.members_eq] at inside

/-- A value that is made for a record is not an object without members. -/
theorem null_of_empty (none : empty (putAll .null fields) = true) :
    putAll .null fields = .null := by
  induction fields using List.reverseRecOn with
  | nil => rfl
  | append_singleton fields last ih =>
    rw [putAll, List.foldl_append, List.foldl_cons, List.foldl_nil, ← putAll] at none ⊢
    obtain ⟨name, value⟩ := last
    have filled (value : JsonValue) (members : List (Bytes × JsonValue)) :
        empty (.object (set name value members)) ≠ true := fun bare =>
      set_ne_nil (List.isEmpty_iff.mp bare)
    have before := (Bare.null.written.putAll fields).1
    cases value with
    | none => exact ih none
    | some value =>
      cases made : putAll .null fields with
      | null => exact absurd (by rwa [made] at none) (filled value [])
      | object members => exact absurd (by rwa [made] at none) (filled value members)
      | _ => rw [made] at before; cases before

/-- The same condition, and the same value where it holds. -/
theorem field_eq_iff {c d : Prop} [Decidable c] [Decidable d] {v w : JsonValue} :
    field name c v = field name d w ↔ (c ↔ d) ∧ (c → v = w) := by
  rw [field, field, Prod.mk.injEq]
  split_ifs with one two two <;> simp [one, two]

theorem tojsonInt_eq {m n : Int} : tojsonInt name m = tojsonInt name n ↔ AlikeInt m n := by
  rw [tojsonInt, tojsonInt, field_eq_iff, AlikeInt, JsonValue.int.injEq]
  omega

theorem tojsonFloat_eq {x y : Rat} : tojsonFloat name x = tojsonFloat name y ↔ AlikeFloat x y := by
  rw [tojsonFloat, tojsonFloat, field_eq_iff, AlikeFloat, JsonValue.real.injEq, ← not_lt, ← not_lt]
  constructor
  · rintro ⟨both, same⟩
    by_cases above : 0 < x
    · exact .inl (same above)
    · exact .inr ⟨above, fun other => above (both.mpr other)⟩
  · rintro (rfl | ⟨one, two⟩)
    · exact ⟨.rfl, fun _ => rfl⟩
    · exact ⟨iff_of_false one two, fun above => absurd above one⟩

theorem tojsonString_eq {s t : Bytes} :
    tojsonString name s = tojsonString name t ↔ AlikeText s t := by
  rw [tojsonString, tojsonString, field_eq_iff, AlikeText, JsonValue.string.injEq, not_iff_not]
  refine and_congr_right fun both => ⟨fun same => ?_, fun same _ => same⟩
  by_cases none : s = []
  · rw [none, both.mp none]
  · exact same none

theorem tojsonArrayString_eq {s t : List Bytes} :
    tojsonArrayString name s = tojsonArrayString name t ↔ AlikeTexts s t := by
  have texts : (s.map fun str => JsonValue.string (cStr str)) =
      (t.map fun str => JsonValue.string (cStr str)) ↔ AlikeTexts s t := by
    have inj : Function.Injective JsonValue.string := fun _ _ => JsonValue.string.inj
    rw [AlikeTexts, ← (List.map_injective_iff.mpr inj).eq_iff, List.map_map, List.map_map]
    rfl
  rw [tojsonArrayString, tojsonArrayString, field_eq_iff, JsonValue.array.injEq, texts]
  constructor
  · rintro ⟨both, same⟩
    by_cases none : s = []
    · rw [none, not_not.mp fun some => both.mpr some none]
      rfl
    · exact same none
  · intro same
    refine ⟨not_iff_not.mpr ?_, fun _ => same⟩
    rw [← List.map_eq_nil_iff (f := cStr), same, List.map_eq_nil_iff]

theorem tojsonArrayInt_eq {s t : List Int} :
    tojsonArrayInt name s = tojsonArrayInt name t ↔ s = t := by
  have inj : Function.Injective JsonValue.int := fun _ _ => JsonValue.int.inj
  rw [tojsonArrayInt, tojsonArrayInt, field_eq_iff, JsonValue.array.injEq,
    (List.map_injective_iff.mpr inj).eq_iff]
  constructor
  · rintro ⟨both, same⟩
    by_cases none : s = []
    · rw [none, not_not.mp fun some => both.mpr some none]
    · exact same none
  · rintro rfl
    exact ⟨.rfl, fun _ => rfl⟩

theorem tojsonObject_eq :
    tojsonObject name (putAll .null fields) = tojsonObject name (putAll .null fields') ↔
      putAll .null fields = putAll .null fields' := by
  rw [tojsonObject, tojsonObject, field_eq_iff]
  constructor
  · rintro ⟨both, same⟩
    cases none : empty (putAll .null fields) with
    | false => exact same none
    | true =>
      have none' : empty (putAll .null fields') = true := by
        rw [← Bool.not_eq_false, ← both, none]
        decide
      rw [null_of_empty none, null_of_empty none']
  · intro same
    rw [same]
    exact ⟨.rfl, fun _ => rfl⟩

theorem AdRtbVideo.toJson_eq_iff {a b : AdRtbVideo} :
    a.toJson .null = b.toJson .null ↔ a.Alike b := by
  refine Iff.trans (putAll_eq_iff .null
    ["w", "h", "pos", "linearity", "minduration", "maxduration", "mimes"] (by decide) rfl rfl) ?_
  rw [alike_iff]
  simp only [List.cons.injEq, and_true, tojsonInt_eq, tojsonArrayString_eq]

theorem AdRtbVideo.object_eq_iff {a b : AdRtbVideo} :
    tojsonObject name (a.toJson .null) = tojsonObject name (b.toJson .null) ↔ a.Alike b :=
  tojsonObject_eq.trans toJson_eq_iff

theorem AdRtbBanner.toJson_eq_iff {a b : AdRtbBanner} :
    a.toJson .null = b.toJson .null ↔ a.Alike b := by
  refine Iff.trans (putAll_eq_iff .null ["w", "h", "pos", "btype"] (by decide) rfl rfl) ?_
  rw [alike_iff]
  simp only [List.cons.injEq, and_true, tojsonInt_eq, tojsonArrayInt_eq]

theorem AdRtbBanner.object_eq_iff {a b : AdRtbBanner} :
    tojsonObject name (a.toJson .null) = tojsonObject name (b.toJson .null) ↔ a.Alike b :=
  tojsonObject_eq.trans toJson_eq_iff

theorem AdRtbSiteContent.toJson_eq_iff {a b : AdRtbSiteContent} :
    a.toJson .null = b.toJson .null ↔ a.Alike b := by
  refine Iff.trans (putAll_eq_iff .null ["title", "url", "keywords", "cat"] (by decide) rfl rfl) ?_
  rw [alike_iff]
  simp only [List.cons.injEq, and_true, tojsonString_eq, tojsonArrayString_eq]

theorem AdRtbSiteContent.object_eq_iff {a b : AdRtbSiteContent} :
    tojsonObject name (a.toJson .null) = tojsonObject name (b.toJson .null) ↔ a.Alike b :=
  tojsonObject_eq.trans toJson_eq_iff

theorem AdRtbSite.toJson_eq_iff {a b : AdRtbSite} :
    a.toJson .null = b.toJson .null ↔ a.Alike b := by
  refine Iff.trans (putAll_eq_iff .null ["name", "page", "cat", "content"] (by decide) rfl rfl) ?_
  rw [alike_iff]
  simp only [List.cons.injEq, and_true, tojsonString_eq, tojsonArrayString_eq,
    AdRtbSiteContent.object_eq_iff]

theorem AdRtbSite.object_eq_iff {a b : AdRtbSite} :
    tojsonObject name (a.toJson .null) = tojsonObject name (b.toJson .null) ↔ a.Alike b :=
  tojsonObject_eq.trans toJson_eq_iff

theorem AdRtbGeo.toJson_eq_iff {a b : AdRtbGeo} :
    a.toJson .null = b.toJson .null ↔ a.Alike b := by
  refine Iff.trans (putAll_eq_iff .null ["lat", "lon"] (by decide) rfl rfl) ?_
  rw [alike_iff]
  simp only [List.cons.injEq, and_true, tojsonFloat_eq]

theorem AdRtbGeo.object_eq_iff {a b : AdRtbGeo} :
    tojsonObject name (a.toJson .null) = tojsonObject name (b.toJson .null) ↔ a.Alike b :=
  tojsonObject_eq.trans toJson_eq_iff

theorem AdRtbDevice.toJson_eq_iff {a b : AdRtbDevice} :
    a.toJson .null = b.toJson .null ↔ a.Alike b := by
  refine Iff.trans (putAll_eq_iff .null ["ua", "ip", "geo", "didmd5", "dpidmd5", "make",
    "model", "os", "osv", "language", "js", "connectiontype", "devicetype"]
    (by decide) rfl rfl) ?_
  rw [alike_iff]
  simp only [List.cons.injEq, and_true, tojsonString_eq, tojsonInt_eq, AdRtbGeo.object_eq_iff]

theorem AdRtbDevice.object_eq_iff {a b : AdRtbDevice} :
    tojsonObject name (a.toJson .null) = tojsonObject name (b.toJson .null) ↔ a.Alike b :=
  tojsonObject_eq.trans toJson_eq_iff

theorem AdRtbUser.toJson_eq_iff {a b : AdRtbUser} :
    a.toJson .null = b.toJson .null ↔ a.Alike b := by
  refine Iff.trans (putAll_eq_iff .null ["id", "keywords"] (by decide) rfl rfl) ?_
  rw [alike_iff]
  simp only [List.cons.injEq, and_true, tojsonString_eq]

theorem AdRtbUser.object_eq_iff {a b : AdRtbUser} :
    tojsonObject name (a.toJson .null) = tojsonObject name (b.toJson .null) ↔ a.Alike b :=
  tojsonObject_eq.trans toJson_eq_iff

theorem AdRtbApp.toJson_eq_iff {a b : AdRtbApp} :
    a.toJson .null = b.toJson .null ↔ a.Alike b := by
  refine Iff.trans (putAll_eq_iff .null ["name", "bundle", "content", "cat"] (by decide) rfl rfl) ?_
  rw [alike_iff]
  simp only [List.cons.injEq, and_true, tojsonString_eq, tojsonArrayString_eq,
    AdRtbSiteContent.object_eq_iff]

theorem AdRtbApp.object_eq_iff {a b : AdRtbApp} :
    tojsonObject name (a.toJson .null) = tojsonObject name (b.toJson .null) ↔ a.Alike b :=
  tojsonObject_eq.trans toJson_eq_iff

theorem AdRtbImp.toJson_eq_iff {a b : AdRtbImp} (bare : Bare json) :
    a.toJson json = b.toJson json ↔ a.Alike b := by
  refine Iff.trans (putAll_eq_iff bare ["id", "tagid", "bidfloor", "banner", "video"] (by decide)
    rfl rfl) ?_
  rw [alike_iff]
  simp only [List.cons.injEq, and_true, tojsonString_eq, tojsonFloat_eq,
    AdRtbBanner.object_eq_iff, AdRtbVideo.object_eq_iff]

/-- The value that is used again is empty each time. -/
theorem impsToJson_eq_iff {a b : List AdRtbImp} (bare : Bare json) :
    impsToJson a json = impsToJson b json ↔ List.Forall₂ AdRtbImp.Alike a b := by
  induction a generalizing b json with
  | nil => cases b <;> simp [impsToJson]
  | cons imp rest ih =>
    cases b with
    | nil => simp [impsToJson]
    | cons imp' rest' =>
      have next : Bare (clear (imp.toJson json)) := (bare.written.putAll _).1.clear
      rw [impsToJson, impsToJson, List.cons.injEq, List.forall₂_cons,
        AdRtbImp.toJson_eq_iff bare]
      refine and_congr_right fun alike => ?_
      rw [← (AdRtbImp.toJson_eq_iff bare).mpr alike, ih next]

theorem tojsonArrayImp_eq {a b : List AdRtbImp} :
    tojsonArrayImp name a = tojsonArrayImp name b ↔ List.Forall₂ AdRtbImp.Alike a b := by
  rw [tojsonArrayImp, tojsonArrayImp, field_eq_iff, JsonValue.array.injEq, impsToJson_eq_iff .null]
  constructor
  · rintro ⟨both, same⟩
    by_cases none : a = []
    · rw [none, not_not.mp fun some => both.mpr some none]
      exact .nil
    · exact same none
  · intro alike
    refine ⟨not_iff_not.mpr ?_, fun _ => alike⟩
    rw [← List.length_eq_zero_iff, alike.length_eq, List.length_eq_zero_iff]

/-- Two requests have the same text exactly when they are alike. -/
theorem AdRtbRequest.toJson_eq_iff {a b : AdRtbRequest} :
    a.toJson .null = b.toJson .null ↔ a.Alike b := by
  refine Iff.trans (putAll_eq_iff .null ["site", "device", "user", "app", "imp"] (by decide)
    rfl rfl) ?_
  rw [alike_iff]
  simp only [List.cons.injEq, and_true, AdRtbSite.object_eq_iff, AdRtbDevice.object_eq_iff,
    AdRtbUser.object_eq_iff, AdRtbApp.object_eq_iff, tojsonArrayImp_eq]

def PlainTexts (texts : List Bytes) : Prop := ∀ s ∈ texts, 0 ∉ s

theorem AlikeInt.eq {m n : Int} (alike : AlikeInt m n) (one : -1 ≤ m) (two : -1 ≤ n) : m = n := by
  rcases alike with same | ⟨below, below'⟩
  · exact same
  · omega

theorem AlikeFloat.eq {x y : Rat} (alike : AlikeFloat x y) (one : 0 ≤ x) (two : 0 ≤ y) :
    x = y := by
  rcases alike with same | ⟨below, below'⟩
  · exact same
  · exact (le_antisymm below one).trans (le_antisymm two below')

theorem AlikeText.eq {s t : Bytes} (alike : AlikeText s t) (one : 0 ∉ s) (two : 0 ∉ t) :
    s = t := by
  rw [← cStr_eq_self one, ← cStr_eq_self two]
  exact alike.2

theorem AlikeTexts.eq {s t : List Bytes} (alike : AlikeTexts s t) (one : PlainTexts s)
    (two : PlainTexts t) : s = t := by
  have whole (texts : List Bytes) (plain : PlainTexts texts) : texts.map cStr = texts :=
    (List.map_congr_left fun s among => cStr_eq_self (plain s among)).trans (List.map_id texts)
  rw [← whole s one, ← whole t two]
  exact alike

structure AdRtbVideo.Plain (v : AdRtbVideo) : Prop where
  width : -1 ≤ v.width
  height : -1 ≤ v.height
  pos : -1 ≤ v.pos
  linearity : -1 ≤ v.linearity
  minDuration : -1 ≤ v.minDuration
  maxDuration : -1 ≤ v.maxDuration
  mimes : PlainTexts v.mimes

theorem AdRtbVideo.Alike.eq {a b : AdRtbVideo} (alike : a.Alike b) (one : a.Plain)
    (two : b.Plain) : a = b :=
  AdRtbVideo.ext (alike.mimes.eq one.mimes two.mimes)
    (alike.linearity.eq one.linearity two.linearity)
    (alike.minDuration.eq one.minDuration two.minDuration)
    (alike.maxDuration.eq one.maxDuration two.maxDuration)
    (alike.width.eq one.width two.width) (alike.height.eq one.height two.height)
    (alike.pos.eq one.pos two.pos)

structure AdRtbBanner.Plain (b : AdRtbBanner) : Prop where
  width : -1 ≤ b.width
  height : -1 ≤ b.height
  pos : -1 ≤ b.pos

theorem AdRtbBanner.Alike.eq {a b : AdRtbBanner} (alike : a.Alike b) (one : a.Plain)
    (two : b.Plain) : a = b :=
  AdRtbBanner.ext (alike.width.eq one.width two.width) (alike.height.eq one.height two.height)
    (alike.pos.eq one.pos two.pos) alike.bType

structure AdRtbImp.Plain (i : AdRtbImp) : Prop where
  id : 0 ∉ i.id
  tagId : 0 ∉ i.tagId
  bidFloor : 0 ≤ i.bidFloor
  banner : i.banner.Plain
  video : i.video.Plain

theorem AdRtbImp.Alike.eq {a b : AdRtbImp} (alike : a.Alike b) (one : a.Plain) (two : b.Plain) :
    a = b :=
  AdRtbImp.ext (alike.id.eq one.id two.id) (alike.tagId.eq one.tagId two.tagId)
    (alike.bidFloor.eq one.bidFloor two.bidFloor) (alike.banner.eq one.banner two.banner)
    (alike.video.eq one.video two.video)

structure AdRtbSiteContent.Plain (c : AdRtbSiteContent) : Prop where
  title : 0 ∉ c.title
  url : 0 ∉ c.url
  keywords : 0 ∉ c.keywords
  cat : PlainTexts c.cat

theorem AdRtbSiteContent.Alike.eq {a b : AdRtbSiteContent} (alike : a.Alike b) (one : a.Plain)
    (two : b.Plain) : a = b :=
  AdRtbSiteContent.ext (alike.title.eq one.title two.title) (alike.cat.eq one.cat two.cat)
    (alike.url.eq one.url two.url) (alike.keywords.eq one.keywords two.keywords)

structure AdRtbSite.Plain (s : AdRtbSite) : Prop where
  name : 0 ∉ s.name
  page : 0 ∉ s.page
  refer : s.refer = []
  cat : PlainTexts s.cat
  content : s.content.Plain

theorem AdRtbSite.Alike.eq {a b : AdRtbSite} (alike : a.Alike b) (one : a.Plain)
    (two : b.Plain) : a = b :=
  AdRtbSite.ext (alike.name.eq one.name two.name) (alike.page.eq one.page two.page)
    (one.refer.trans two.refer.symm) (alike.cat.eq one.cat two.cat)
    (alike.content.eq one.content two.content)

structure AdRtbDevice.Plain (d : AdRtbDevice) : Prop where
  userAgent : 0 ∉ d.userAgent
  ip : 0 ∉ d.ip
  lat : 0 ≤ d.geo.lat
  lon : 0 ≤ d.geo.lon
  didmd5 : 0 ∉ d.didmd5
  dpidmd5 : 0 ∉ d.dpidmd5
  make : 0 ∉ d.make
  model : 0 ∉ d.model
  os : 0 ∉ d.os
  osv : 0 ∉ d.osv
  language : 0 ∉ d.language
  jsEnable : -1 ≤ d.jsEnable
  connectionType : -1 ≤ d.connectionType
  deviceType : -1 ≤ d.deviceType

theorem AdRtbDevice.Alike.eq {a b : AdRtbDevice} (alike : a.Alike b) (one : a.Plain)
    (two : b.Plain) : a = b := by
  have geo : a.geo = b.geo :=
    AdRtbGeo.ext (alike.geo.lat.eq one.lat two.lat) (alike.geo.lon.eq one.lon two.lon)
  exact AdRtbDevice.ext (alike.userAgent.eq one.userAgent two.userAgent)
    (alike.ip.eq one.ip two.ip) geo (alike.didmd5.eq one.didmd5 two.didmd5)
    (alike.dpidmd5.eq one.dpidmd5 two.dpidmd5) (alike.make.eq one.make two.make)
    (alike.model.eq one.model two.model) (alike.os.eq one.os two.os)
    (alike.osv.eq one.osv two.osv) (alike.language.eq one.language two.language)
    (alike.jsEnable.eq one.jsEnable two.jsEnable)
    (alike.connectionType.eq one.connectionType two.connectionType)
    (alike.deviceType.eq one.deviceType two.deviceType)

structure AdRtbUser.Plain (u : AdRtbUser) : Prop where
  id : 0 ∉ u.id
  keywords : 0 ∉ u.keywords

theorem AdRtbUser.Alike.eq {a b : AdRtbUser} (alike : a.Alike b) (one : a.Plain)
    (two : b.Plain) : a = b :=
  AdRtbUser.ext (alike.id.eq one.id two.id) (alike.keywords.eq one.keywords two.keywords)

structure AdRtbApp.Plain (a : AdRtbApp) : Prop where
  name : 0 ∉ a.name
  bundle : 0 ∉ a.bundle
  content : a.content.Plain
  cat : PlainTexts a.cat

theorem AdRtbApp.Alike.eq {a b : AdRtbApp} (alike : a.Alike b) (one : a.Plain) (two : b.Plain) :
    a = b :=
  AdRtbApp.ext (alike.name.eq one.name two.name) (alike.bundle.eq one.bundle two.bundle)
    (alike.content.eq one.content two.content) (alike.cat.eq one.cat two.cat)

/-- A request without an id and a referrer, with no text that has a NUL, no float below zero
and no number below the cleared one. -/
structure AdRtbRequest.Plain (r : AdRtbRequest) : Prop where
  id : r.id = []
  imp : ∀ i ∈ r.imp, i.Plain
  site : r.site.Plain
  device : r.device.Plain
  user : r.user.Plain
  app : r.app.Plain

/-- Plain requests are determined by their texts. -/
theorem plain_export {a b : AdRtbRequest} (one : a.Plain) (two : b.Plain)
    (same : a.toJson .null = b.toJson .null) : a = b := by
  have alike := AdRtbRequest.toJson_eq_iff.mp same
  have imps : a.imp = b.imp := by
    obtain ⟨length, at'⟩ := List.forall₂_iff_get.mp alike.imp
    refine List.ext_get length fun i below below' => ?_
    exact (at' i below below').eq (one.imp _ (List.get_mem _ _)) (two.imp _ (List.get_mem _ _))
  exact AdRtbRequest.ext (one.id.trans two.id.symm) imps (alike.site.eq one.site two.site)
    (alike.device.eq one.device two.device) (alike.user.eq one.user two.user)
    (alike.app.eq one.app two.app)

/-- The text of a request determines it against another exactly when the two do not differ in
what is not written alone. -/
theorem request_export (a b : AdRtbRequest) :
    (a.toJson .null = b.toJson .null → a = b) ↔ ¬ (a ≠ b ∧ a.Alike b) := by
  rw [AdRtbRequest.toJson_eq_iff]
  tauto

/-- Two ids, two referrers, and two places south of the equator. -/
theorem lost :
    ¬ (({ id := ascii "1" } : AdRtbRequest).toJson .null =
        ({ id := ascii "2" } : AdRtbRequest).toJson .null →
      ({ id := ascii "1" } : AdRtbRequest) = { id := ascii "2" }) ∧
    ¬ (({ site.refer := ascii "1" } : AdRtbRequest).toJson .null =
        ({ site.refer := ascii "2" } : AdRtbRequest).toJson .null →
      ({ site.refer := ascii "1" } : AdRtbRequest) = { site.refer := ascii "2" }) ∧
    ¬ (({ device.geo.lat := -1 } : AdRtbRequest).toJson .null =
        ({ device.geo.lat := -2 } : AdRtbRequest).toJson .null →
      ({ device.geo.lat := -1 } : AdRtbRequest) = { device.geo.lat := -2 }) := by
  refine ⟨fun told => ?_, fun told => ?_, fun told => ?_⟩
  · have same := congrArg AdRtbRequest.id (told rfl)
    revert same
    decide
  · have same := congrArg (fun r => r.site.refer) (told rfl)
    revert same
    decide
  · have same := congrArg (fun r => r.device.geo.lat) (told rfl)
    revert same
    decide

end RequestExport
