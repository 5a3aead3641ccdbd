import Mathlib.Tactic
import RtbAdapter.JsonRoundTrip
import RtbAdapter.JsonAcceptance
import RtbAdapter.RequestExport

/-!
# The documents that the exchange sends

A reader that keeps the text of every number tells any two written values apart, so the
writer does. The bodies that are sent to a server are therefore the same exactly for requests
that are alike.
-/

namespace ExportedDocuments

open ByteWords CText JsonValues JsonWriter JsonReader JsonRoundTrip JsonAcceptance RequestExport

section Writer

variable {sprintf : Rat → Bytes} {S : Set Rat}

/-- Numbers as words, doubles of a set, and texts without a NUL. -/
def Exported (S : Set Rat) : JsonValue → Prop
  | .int n => -2 ^ 31 ≤ n ∧ n < 2 ^ 31
  | .uint _ => False
  | .real x => x ∈ S
  | .string s => 0 ∉ s
  | _ => True

/-- A number is kept as its text, behind a NUL, which no text of a value has. -/
def textOf (sprintf : Rat → Bytes) (value : JsonValue) : JsonValue :=
  .string (0 :: writeValue sprintf value)

def keepText (token : Token) : Except Failure JsonValue := .ok (.string (0 :: token.text))

/-- How doubles are printed. -/
structure Prints (sprintf : Rat → Bytes) (S : Set Rat) : Prop where
  printed : ∀ x, NumberText (sprintf x)
  point : ∀ x, 46 ∈ sprintf x
  apart : Set.InjOn (realToString sprintf) S

theorem decodes_text (prints : Prints sprintf S) : Decodes sprintf keepText (textOf sprintf) := by
  intro value number inRange
  refine ⟨?_, rfl⟩
  cases value with
  | int n =>
    rw [writeValue, intToString_eq inRange.1 inRange.2]
    exact numberText_int inRange.1 inRange.2
  | uint n =>
    rw [writeValue, uintToString_eq, List.append_nil]
    exact numberText_nat inRange
  | real x => exact (numberText_truncate (prints.printed x) (prints.point x)).1
  | null | string _ | bool _ | array _ | object _ => cases number

mutual

theorem valid_of_exported (value : JsonValue) (formed : Formed (Exported S) value) :
    Valid value := by
  match value with
  | .int n => exact formed
  | .uint n => exact formed.elim
  | .array items => exact validItems_of_exported items formed
  | .object members => exact ⟨formed.1, validMembers_of_exported members formed.2⟩
  | .null | .real _ | .string _ | .bool _ => trivial

theorem validItems_of_exported (items : List JsonValue)
    (formed : FormedItems (Exported S) items) : FormedItems InRange items := by
  match items with
  | [] => trivial
  | item :: rest =>
    exact ⟨valid_of_exported item formed.1, validItems_of_exported rest formed.2⟩

theorem validMembers_of_exported (members : List (Bytes × JsonValue))
    (formed : FormedMembers (Exported S) members) : FormedMembers InRange members := by
  match members with
  | [] => trivial
  | (_, value) :: rest =>
    exact ⟨valid_of_exported value formed.1, validMembers_of_exported rest formed.2⟩

end

theorem int_text {m n : Int} (one : -2 ^ 31 ≤ m ∧ m < 2 ^ 31) (two : -2 ^ 31 ≤ n ∧ n < 2 ^ 31)
    (same : intToString m = intToString n) : m = n := by
  rw [intToString_eq one.1 one.2, intToString_eq two.1 two.2] at same
  exact decimal_injective same

/-- A double is printed with a point, an `int` without one. -/
theorem int_ne_real (prints : Prints sprintf S) {n : Int} (range : -2 ^ 31 ≤ n ∧ n < 2 ^ 31)
    (x : Rat) : intToString n ≠ realToString sprintf x := by
  intro same
  have point := (numberText_truncate (prints.printed x) (prints.point x)).2
  rw [← realToString, ← same, intToString_eq range.1 range.2] at point
  exact notMem_decimal (by decide) n point

/-- Numbers are told apart by their texts. -/
theorem number_inj (prints : Prints sprintf S) {v w : JsonValue} (number : isNumber v)
    (number' : isNumber w) (one : Exported S v) (two : Exported S w)
    (same : writeValue sprintf v = writeValue sprintf w) : v = w := by
  cases v with
  | int m =>
    cases w with
    | int n => rw [int_text one two same]
    | real y => exact absurd same (int_ne_real prints one y)
    | uint n => exact two.elim
    | null | string _ | bool _ | array _ | object _ => cases number'
  | real x =>
    cases w with
    | int n => exact absurd same.symm (int_ne_real prints two x)
    | real y => rw [prints.apart one two same]
    | uint n => exact two.elim
    | null | string _ | bool _ | array _ | object _ => cases number'
  | uint m => exact one.elim
  | null | string _ | bool _ | array _ | object _ => cases number

theorem readBack_number {back : JsonValue → JsonValue} {v : JsonValue} (number : isNumber v) :
    readBack back v = back v ∧ (Formed (Exported S) v → Exported S v) := by
  cases v with
  | int n | uint n | real x => exact ⟨rfl, id⟩
  | null | string _ | bool _ | array _ | object _ => cases number

/-- No other value is read back as a text behind a NUL. -/
theorem readBack_plain {back : JsonValue → JsonValue} {v : JsonValue} (plain : isNumber v = false)
    (t : Bytes) : readBack back v ≠ .string (0 :: t) := by
  intro same
  cases v with
  | string s =>
    have clean := cStr_clean s
    rw [readBack, JsonValue.string.injEq] at same
    exact clean (same ▸ List.mem_cons_self)
  | int n | uint n | real x => cases plain
  | null | bool b | array items | object members => cases same

mutual

theorem readBack_inj (prints : Prints sprintf S) (v w : JsonValue)
    (one : Formed (Exported S) v) (two : Formed (Exported S) w)
    (same : readBack (textOf sprintf) v = readBack (textOf sprintf) w) : v = w := by
  cases number : isNumber v with
  | true =>
    obtain ⟨text, leaf⟩ := @readBack_number S (textOf sprintf) _ number
    cases number' : isNumber w with
    | true =>
      obtain ⟨text', leaf'⟩ := @readBack_number S (textOf sprintf) _ number'
      rw [text, text', textOf, textOf, JsonValue.string.injEq] at same
      exact number_inj prints number number' (leaf one) (leaf' two) (List.cons.inj same).2
    | false => exact absurd (same.symm.trans text) (readBack_plain number' _)
  | false =>
    cases number' : isNumber w with
    | true =>
      exact absurd (same.trans (readBack_number (S := S) number').1)
        (readBack_plain number _)
    | false =>
      match v with
      | .array items =>
        cases w with
        | array items' =>
          simp only [readBack, JsonValue.array.injEq] at same
          rw [readBackItems_inj prints items items' one two same]
        | int _ | uint _ | real _ => cases number'
        | null | string _ | bool _ | object _ => cases same
      | .object members =>
        cases w with
        | object members' =>
          simp only [readBack, JsonValue.object.injEq] at same
          rw [readBackMembers_inj prints members members' one.2 two.2 same]
        | int _ | uint _ | real _ => cases number'
        | null | string _ | bool _ | array _ => cases same
      | .string s =>
        cases w with
        | string t =>
          simp only [readBack, JsonValue.string.injEq] at same
          rw [cStr_eq_self one, cStr_eq_self two] at same
          rw [same]
        | int _ | uint _ | real _ => cases number'
        | null | bool _ | array _ | object _ => cases same
      | .bool _ =>
        cases w with
        | bool _ => exact same
        | int _ | uint _ | real _ => cases number'
        | null | string _ | array _ | object _ => cases same
      | .null =>
        cases w with
        | null => rfl
        | int _ | uint _ | real _ => cases number'
        | bool _ | string _ | array _ | object _ => cases same
      | .int _ | .uint _ | .real _ => cases number

theorem readBackItems_inj (prints : Prints sprintf S) (v w : List JsonValue)
    (one : FormedItems (Exported S) v) (two : FormedItems (Exported S) w)
    (same : backItems (textOf sprintf) v = backItems (textOf sprintf) w) : v = w := by
  match v, w with
  | [], [] => rfl
  | [], _ :: _ => cases same
  | _ :: _, [] => cases same
  | item :: rest, item' :: rest' =>
    obtain ⟨first, later⟩ := List.cons.inj same
    rw [readBack_inj prints item item' one.1 two.1 first,
      readBackItems_inj prints rest rest' one.2 two.2 later]

theorem readBackMembers_inj (prints : Prints sprintf S) (v w : List (Bytes × JsonValue))
    (one : FormedMembers (Exported S) v) (two : FormedMembers (Exported S) w)
    (same : backMembers (textOf sprintf) v = backMembers (textOf sprintf) w) : v = w := by
  match v, w with
  | [], [] => rfl
  | [], _ :: _ => cases same
  | _ :: _, [] => cases same
  | (name, value) :: rest, (name', value') :: rest' =>
    obtain ⟨first, later⟩ := List.cons.inj same
    obtain ⟨rfl, values⟩ := Prod.mk.inj first
    rw [readBack_inj prints value value' one.1 two.1 values,
      readBackMembers_inj prints rest rest' one.2 two.2 later]

end

/-- The writer is injective on what is exported. -/
theorem write_inj (prints : Prints sprintf S) {v w : JsonValue} (one : Formed (Exported S) v)
    (two : Formed (Exported S) w) (same : write sprintf v = write sprintf w) : v = w := by
  have read := parseWith_write (decodes_text prints) (valid_of_exported v one) []
  have read' := parseWith_write (decodes_text prints) (valid_of_exported w two) []
  rw [same, read'] at read
  exact readBack_inj prints v w one two (Except.ok.inj read).symm

end Writer

section Classes

variable {S : Set Rat} {json : JsonValue} {name : String}

abbrev Word (n : Int) : Prop := -2 ^ 31 ≤ n ∧ n < 2 ^ 31

structure Field (S : Set Rat) (field : Bytes × Option JsonValue) : Prop where
  name : 0 ∉ field.1
  value : ∀ value ∈ field.2, Formed (Exported S) value

theorem put_formed {field : Bytes × Option JsonValue} (formed : Formed (Exported S) json)
    (new : Field S field) : Formed (Exported S) (put json field) := by
  obtain ⟨name, value⟩ := field
  cases value with
  | none => exact formed
  | some value =>
    cases json with
    | null =>
      exact ⟨@sorted_set [] _ _ ⟨List.Pairwise.nil, fun _ inside => nomatch inside⟩ new.name,
        @formedMembers_set _ [] _ _ trivial (new.value value rfl)⟩
    | object members =>
      exact ⟨sorted_set formed.1 new.name, formedMembers_set formed.2 (new.value value rfl)⟩
    | int _ | uint _ | real _ | string _ | bool _ | array _ => exact formed

theorem putAll_formed {fields : List (Bytes × Option JsonValue)}
    (formed : Formed (Exported S) json) (new : fields.Forall (Field S)) :
    Formed (Exported S) (putAll json fields) := by
  induction fields generalizing json with
  | nil => exact formed
  | cons field rest ih =>
    rw [List.forall_cons] at new
    exact ih (put_formed formed new.1) new.2

theorem field_formed {present : Prop} [Decidable present] {value : JsonValue}
    (clean : 0 ∉ ascii name) (formed : present → Formed (Exported S) value) :
    Field S (field name present value) := by
  refine ⟨clean, fun other inside => ?_⟩
  rw [field] at inside
  split at inside
  case isTrue here =>
    obtain rfl := Option.some.inj inside
    exact formed here
  case isFalse => cases inside

theorem field_int (clean : 0 ∉ ascii name) {n : Int} (word : Word n) : Field S (tojsonInt name n) :=
  field_formed clean fun _ => word

theorem field_float (clean : 0 ∉ ascii name) {x : Rat} (inside : 0 < x → x ∈ S) :
    Field S (tojsonFloat name x) :=
  field_formed clean inside

theorem field_string (clean : 0 ∉ ascii name) (str : Bytes) : Field S (tojsonString name str) :=
  field_formed clean fun _ => cStr_clean str

theorem field_object (clean : 0 ∉ ascii name) (formed : Formed (Exported S) json) :
    Field S (tojsonObject name json) :=
  field_formed clean fun _ => formed

theorem formedItems_iff {leaf : JsonValue → Prop} {items : List JsonValue} :
    FormedItems leaf items ↔ ∀ item ∈ items, Formed leaf item := by
  induction items with
  | nil => exact iff_of_true trivial (fun _ inside => nomatch inside)
  | cons item rest ih => rw [List.forall_mem_cons, ← ih, FormedItems]

theorem field_strings (clean : 0 ∉ ascii name) (array : List Bytes) :
    Field S (tojsonArrayString name array) := by
  refine field_formed clean fun _ => formedItems_iff.mpr fun item inside => ?_
  obtain ⟨str, -, rfl⟩ := List.mem_map.mp inside
  exact cStr_clean str

theorem field_ints (clean : 0 ∉ ascii name) {array : List Int} (words : ∀ n ∈ array, Word n) :
    Field S (tojsonArrayInt name array) := by
  refine field_formed clean fun _ => formedItems_iff.mpr fun item inside => ?_
  obtain ⟨n, among, rfl⟩ := List.mem_map.mp inside
  exact words n among

structure VideoWords (v : AdRtbVideo) : Prop where
  width : Word v.width
  height : Word v.height
  pos : Word v.pos
  linearity : Word v.linearity
  minDuration : Word v.minDuration
  maxDuration : Word v.maxDuration

theorem video_formed {v : AdRtbVideo} (words : VideoWords v) :
    Formed (Exported S) (v.toJson .null) := by
  refine putAll_formed trivial ?_
  exact ⟨field_int (by decide) words.width, field_int (by decide) words.height,
    field_int (by decide) words.pos, field_int (by decide) words.linearity,
    field_int (by decide) words.minDuration, field_int (by decide) words.maxDuration,
    field_strings (by decide) _⟩

structure BannerWords (b : AdRtbBanner) : Prop where
  width : Word b.width
  height : Word b.height
  pos : Word b.pos
  bType : ∀ n ∈ b.bType, Word n

theorem banner_formed {b : AdRtbBanner} (words : BannerWords b) :
    Formed (Exported S) (b.toJson .null) := by
  refine putAll_formed trivial ?_
  exact ⟨field_int (by decide) words.width, field_int (by decide) words.height,
    field_int (by decide) words.pos, field_ints (by decide) words.bType⟩

structure ImpWords (S : Set Rat) (i : AdRtbImp) : Prop where
  bidFloor : 0 < i.bidFloor → i.bidFloor ∈ S
  banner : BannerWords i.banner
  video : VideoWords i.video

theorem imp_formed {i : AdRtbImp} (words : ImpWords S i) (formed : Formed (Exported S) json) :
    Formed (Exported S) (i.toJson json) := by
  refine putAll_formed formed ?_
  exact ⟨field_string (by decide) _, field_string (by decide) _,
    field_float (by decide) words.bidFloor, field_object (by decide) (banner_formed words.banner),
    field_object (by decide) (video_formed words.video)⟩

theorem clear_formed (formed : Formed (Exported S) json) : Formed (Exported S) (clear json) := by
  cases json with
  | array _ => trivial
  | object _ => exact ⟨⟨List.Pairwise.nil, fun _ inside => nomatch inside⟩, trivial⟩
  | null | int _ | uint _ | real _ | string _ | bool _ => exact formed

/-- Every impression is written into what is left of the one before. -/
theorem imps_formed {imps : List AdRtbImp} (words : ∀ i ∈ imps, ImpWords S i)
    (formed : Formed (Exported S) json) : FormedItems (Exported S) (impsToJson imps json) := by
  induction imps generalizing json with
  | nil => trivial
  | cons i rest ih =>
    rw [List.forall_mem_cons] at words
    have here := imp_formed words.1 formed
    exact ⟨here, ih words.2 (clear_formed here)⟩

theorem content_formed (c : AdRtbSiteContent) : Formed (Exported S) (c.toJson .null) := by
  refine putAll_formed trivial ?_
  exact ⟨field_string (by decide) _, field_string (by decide) _, field_string (by decide) _,
    field_strings (by decide) _⟩

theorem site_formed (site : AdRtbSite) : Formed (Exported S) (site.toJson .null) := by
  refine putAll_formed trivial ?_
  exact ⟨field_string (by decide) _, field_string (by decide) _, field_strings (by decide) _,
    field_object (by decide) (content_formed _)⟩

structure DeviceWords (S : Set Rat) (d : AdRtbDevice) : Prop where
  lat : 0 < d.geo.lat → d.geo.lat ∈ S
  lon : 0 < d.geo.lon → d.geo.lon ∈ S
  jsEnable : Word d.jsEnable
  connectionType : Word d.connectionType
  deviceType : Word d.deviceType

theorem device_formed {d : AdRtbDevice} (words : DeviceWords S d) :
    Formed (Exported S) (d.toJson .null) := by
  have geo : Formed (Exported S) (d.geo.toJson .null) := by
    refine putAll_formed trivial ?_
    exact ⟨field_float (by decide) words.lat, field_float (by decide) words.lon⟩
  refine putAll_formed trivial ?_
  exact ⟨field_string (by decide) _, field_string (by decide) _, field_object (by decide) geo,
    field_string (by decide) _, field_string (by decide) _, field_string (by decide) _,
    field_string (by decide) _, field_string (by decide) _, field_string (by decide) _,
    field_string (by decide) _, field_int (by decide) words.jsEnable,
    field_int (by decide) words.connectionType, field_int (by decide) words.deviceType⟩

theorem user_formed (u : AdRtbUser) : Formed (Exported S) (u.toJson .null) := by
  refine putAll_formed trivial ?_
  exact ⟨field_string (by decide) _, field_string (by decide) _⟩

theorem app_formed (a : AdRtbApp) : Formed (Exported S) (a.toJson .null) := by
  refine putAll_formed trivial ?_
  exact ⟨field_string (by decide) _, field_string (by decide) _,
    field_object (by decide) (content_formed _), field_strings (by decide) _⟩

/-- The numbers of a request are words, and its doubles are of a set. -/
structure RequestWords (S : Set Rat) (r : AdRtbRequest) : Prop where
  imp : ∀ i ∈ r.imp, ImpWords S i
  device : DeviceWords S r.device

theorem request_formed {r : AdRtbRequest} (words : RequestWords S r) :
    Formed (Exported S) (r.toJson .null) := by
  refine putAll_formed trivial ?_
  exact ⟨field_object (by decide) (site_formed _),
    field_object (by decide) (device_formed words.device),
    field_object (by decide) (user_formed _), field_object (by decide) (app_formed _),
    field_formed (by decide) fun _ => imps_formed words.imp trivial⟩

end Classes

section Bodies

variable {sprintf : Rat → Bytes} {S : Set Rat} {a b : AdRtbRequest}

/-- The body that `SendDsp` posts. -/
def body (sprintf : Rat → Bytes) (r : AdRtbRequest) : Bytes := write sprintf (r.toJson .null)

/-- Two requests are sent in one body exactly when they are alike. -/
theorem body_eq_iff (prints : Prints sprintf S) (one : RequestWords S a) (two : RequestWords S b) :
    body sprintf a = body sprintf b ↔ a.Alike b := by
  rw [← AdRtbRequest.toJson_eq_iff]
  refine ⟨fun same => ?_, fun same => by rw [body, body, same]⟩
  exact write_inj prints (request_formed one) (request_formed two) same

theorem body_eq_iff_example :
    body (fun _ => half) { id := ascii "a", imp := [{ bidFloor := 3 / 2, banner.width := 300 }] } =
      body (fun _ => half)
        { id := ascii "b", imp := [{ bidFloor := 3 / 2, banner.width := 300 }] } ↔
    ({ id := ascii "a", imp := [{ bidFloor := 3 / 2, banner.width := 300 }] } :
      AdRtbRequest).Alike
        { id := ascii "b", imp := [{ bidFloor := 3 / 2, banner.width := 300 }] } := by
  have prints : Prints (fun _ => half) {3 / 2} :=
    ⟨doubles_half.printed, doubles_half.point, Set.injOn_singleton _ _⟩
  have device : DeviceWords {3 / 2} {} :=
    ⟨fun above => absurd above (by decide), fun above => absurd above (by decide), by decide,
      by decide, by decide⟩
  have banner : BannerWords { width := 300 } :=
    ⟨by decide, by decide, by decide, fun _ inside => nomatch inside⟩
  have video : VideoWords {} := ⟨by decide, by decide, by decide, by decide, by decide, by decide⟩
  have words (id : Bytes) : RequestWords {3 / 2}
      { id, imp := [{ bidFloor := 3 / 2, banner.width := 300 }] } := by
    refine ⟨fun i inside => ?_, device⟩
    obtain rfl := List.mem_singleton.mp inside
    exact ⟨fun _ => rfl, banner, video⟩
  exact body_eq_iff prints (words _) (words _)

end Bodies

end ExportedDocuments
