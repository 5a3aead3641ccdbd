import RtbAdapter.FilterKeys
import RtbAdapter.MatchedOrders
import RtbAdapter.PlanningUpdate

/-!
# Creatives and their keys

The reader files the creatives of an order under the number that the id of their
exchange reads as. When the ids are plain decimals, an order with the size key of a
request has a creative of that size for the exchange of the request, and its ban keys
are those of its creatives for the exchange.
-/

namespace CreativeKeys

open ByteWords CText JsonValues PlanningUnit PlanningData RtbBase FilterTables FilterKeys
open RtbFilters MatchedOrders Std

/-- What the reader makes sure of. -/
structure Reads (creates : TreeMap UInt32 AdCreativeInfo) : Prop where
  keyed : ∀ (adx : UInt32) (create : AdCreativeInfo), creates[adx]? = some create →
    adx = atoiUInt create.adxId
  category : ∀ (adx : UInt32) (create : AdCreativeInfo), creates[adx]? = some create →
    ∀ m ∈ create.materials, 0 ∉ m.category

/-- The ids of the exchanges are decimals that fit an `int`. -/
def Canonical (creates : TreeMap UInt32 AdCreativeInfo) : Prop :=
  ∀ (adx : UInt32) (create : AdCreativeInfo), creates[adx]? = some create →
    ∃ n < 2 ^ 31, create.adxId = decimal (n : Nat)

theorem reads_empty : Reads ∅ where
  keyed adx create found := by simp at found
  category adx create found := by simp at found

/-- What holds of each value that is read holds of all. -/
theorem mapM_all {α β : Type} {read : α → Option β} {good : β → Prop}
    (each : ∀ x y, read x = some y → good y) (xs : List α) :
    ∀ ys, xs.mapM read = some ys → ∀ y ∈ ys, good y := by
  induction xs with
  | nil =>
    intro ys done y among
    obtain rfl : [] = ys := by simpa using done
    exact absurd among List.not_mem_nil
  | cons x xs ih =>
    intro ys done y among
    obtain ⟨first, rest, here, later, rfl⟩ := mapM_cons_eq_some.mp done
    rcases List.mem_cons.mp among with rfl | among
    · exact each x y here
    · exact ih rest later y among

theorem asString_clean {value : JsonValue} {s : Bytes} (read : value.asString = some s) :
    0 ∉ s := by
  cases value with
  | null =>
    obtain rfl : [] = s := Option.some.inj read
    exact List.not_mem_nil
  | string text =>
    obtain rfl : cStr text = s := Option.some.inj read
    exact cStr_clean text
  | bool b =>
    obtain rfl := Option.some.inj read
    cases b <;> decide
  | _ => exact nomatch read

theorem optional_cases {α : Type} {value : JsonValue} {key : String} {absent x : α}
    {read : JsonValue → Option α} (done : value.optional key absent read = some x) :
    x = absent ∨ ∃ field, read field = some x := by
  rw [JsonValue.optional] at done
  obtain ⟨member, -, done⟩ := Option.bind_eq_some_iff.mp done
  split at done
  · obtain ⟨field, -, done⟩ := Option.bind_eq_some_iff.mp done
    exact .inr ⟨field, done⟩
  · exact .inl (Option.some.inj done).symm

theorem dataParseMaterial_category {value : JsonValue} {m : AdMaterialInfo}
    (read : dataParseMaterial value = some m) : 0 ∉ m.category := by
  rw [dataParseMaterial] at read
  -- what is read in front of the category
  iterate 18 obtain ⟨_, -, read⟩ := Option.bind_eq_some_iff.mp read
  obtain ⟨category, here, read⟩ := Option.bind_eq_some_iff.mp read
  obtain ⟨_, -, read⟩ := Option.bind_eq_some_iff.mp read
  obtain rfl := Option.some.inj read
  rcases optional_cases here with rfl | ⟨field, read⟩
  · exact List.not_mem_nil
  · exact asString_clean read

theorem dataParseCreate_reads {creates creates' : TreeMap UInt32 AdCreativeInfo}
    {value : JsonValue} (reads : Reads creates)
    (read : dataParseCreate creates value = some creates') : Reads creates' := by
  simp only [dataParseCreate, Option.bind_eq_bind, Option.pure_def, Option.bind_eq_some_iff,
    Option.some.injEq] at read
  obtain ⟨_, -, adxId, -, _, -, gid, -, _, -, items, -, materials, read, rfl⟩ := read
  have clean : ∀ m ∈ materials, 0 ∉ m.category :=
    mapM_all (fun _ _ => dataParseMaterial_category) items materials read
  have shared : ∀ m ∈ ((creates[atoiUInt adxId]?).getD {}).materials, 0 ∉ m.category := by
    intro m among
    cases held : creates[atoiUInt adxId]? with
    | none =>
      rw [held] at among
      exact absurd among List.not_mem_nil
    | some create =>
      rw [held] at among
      exact reads.category _ create held m among
  constructor
  · intro adx create found
    rw [TreeMap.getElem?_insert] at found
    split at found
    · next same =>
      obtain rfl := Option.some.inj found
      exact (compare_eq_iff_eq.mp same).symm
    · exact reads.keyed adx create found
  · intro adx create found m among
    rw [TreeMap.getElem?_insert] at found
    split at found
    · obtain rfl := Option.some.inj found
      rcases List.mem_append.mp among with old | new
      · exact shared m old
      · exact clean m new
    · exact reads.category adx create found m among

/-- The creatives of every order that is read. -/
theorem dataParse_reads {parse : Bytes → Option JsonValue} {text : Bytes} {ret : Int}
    {u : AdPlanningUnit} (parsed : dataParse parse text = some (ret, u)) :
    Reads u.creativeInfo := by
  have loop : ∀ (items : List JsonValue) (creates creates' : TreeMap UInt32 AdCreativeInfo),
      Reads creates → items.foldlM dataParseCreate creates = some creates' → Reads creates' := by
    intro items
    induction items with
    | nil =>
      intro creates creates' reads done
      obtain rfl : creates = creates' := by simpa using done
      exact reads
    | cons item items ih =>
      intro creates creates' reads done
      rw [List.foldlM_cons] at done
      obtain ⟨next, here, done⟩ := Option.bind_eq_some_iff.mp done
      exact ih next creates' (dataParseCreate_reads reads here) done
  rw [dataParse] at parsed
  split at parsed
  · obtain ⟨-, rfl⟩ := Prod.mk.inj (Option.some.inj parsed)
    exact reads_empty
  · -- what is read in front of the creatives
    iterate 8 obtain ⟨_, -, parsed⟩ := Option.bind_eq_some_iff.mp parsed
    obtain ⟨creates, read, parsed⟩ := Option.bind_eq_some_iff.mp parsed
    iterate 3 obtain ⟨_, -, parsed⟩ := Option.bind_eq_some_iff.mp parsed
    obtain ⟨-, rfl⟩ := Prod.mk.inj (Option.some.inj parsed)
    rcases optional_cases read with rfl | ⟨field, read⟩
    · exact reads_empty
    · obtain ⟨items, -, read⟩ := Option.bind_eq_some_iff.mp read
      exact loop items ∅ creates reads_empty read

variable {u : AdPlanningUnit} {r : AdRtbRequest} {create : AdCreativeInfo}

theorem mem_creatives : create ∈ creatives u ↔
    ∃ adx : UInt32, u.creativeInfo[adx]? = some create := by
  rw [creatives, List.mem_map]
  constructor
  · rintro ⟨⟨adx, _⟩, listed, rfl⟩
    exact ⟨adx, TreeMap.mem_toList_iff_getElem?_eq_some.mp listed⟩
  · rintro ⟨adx, found⟩
    exact ⟨(adx, create), TreeMap.mem_toList_iff_getElem?_eq_some.mpr found, rfl⟩

/-- The id of a creative is the number it is filed under. -/
theorem adxId_eq (reads : Reads u.creativeInfo) (canonical : Canonical u.creativeInfo)
    {adx : UInt32}
    (found : u.creativeInfo[adx]? = some create) : create.adxId = decimalUInt adx := by
  obtain ⟨n, small, text⟩ := canonical adx create found
  rw [reads.keyed adx create found, text, ← decimalUInt_ofNat small, atoiUInt_decimalUInt]

theorem got_iff {asks keys : List Bytes} : got asks keys ↔ ∃ key ∈ asks, key ∈ keys := by
  simp [got]

/-- The size filter finds an order with a creative of the size whose id is that of the exchange. -/
theorem got_size (canonical : Canonical u.creativeInfo) :
    got (sizeAsks r) (sizeKeys u) ↔ u.time.push ∧ ∃ create ∈ creatives u,
      create.adxId = decimalUInt r.adx ∧ create.creativeGroupId ≠ [] ∧
        ∃ m ∈ create.materials, sizeText m = cStr (r.text .size) := by
  rw [got_iff, sizeAsks, sizeKeys, whenPushed]
  constructor
  · rintro ⟨key, asked, listed⟩
    rw [List.mem_singleton] at asked
    split at listed
    · next push =>
      obtain ⟨create, there, filed⟩ := List.mem_flatMap.mp listed
      obtain ⟨held, usable⟩ := List.mem_filter.mp there
      obtain ⟨m, among, same⟩ := List.mem_map.mp filed
      obtain ⟨adx, found⟩ := mem_creatives.mp held
      obtain ⟨n, small, text⟩ := canonical adx create found
      rw [asked, text, sizeKey_eq_iff small] at same
      refine ⟨push, create, held, ?_, (of_decide_eq_true usable).1, m, among, same.2⟩
      rw [text, same.1, decimalUInt_ofNat small]
    · exact absurd listed List.not_mem_nil
  · rintro ⟨push, create, held, id, group, m, among, same⟩
    refine ⟨_, List.mem_singleton_self _, ?_⟩
    rw [if_pos push]
    obtain ⟨adx, found⟩ := mem_creatives.mp held
    obtain ⟨n, small, text⟩ := canonical adx create found
    refine List.mem_flatMap.mpr ⟨create, List.mem_filter.mpr ⟨held, ?_⟩,
      List.mem_map.mpr ⟨m, among, ?_⟩⟩
    · rw [text]
      exact decide_eq_true ⟨group, decimal_ne_nil _⟩
    · rw [text, sizeKey_eq_iff small, ← decimalUInt_eq_decimal small, ← text]
      exact ⟨id.symm, same⟩

/-- The creative with the id of an exchange is filed under its number. -/
theorem found_of_adxId (reads : Reads u.creativeInfo) (held : create ∈ creatives u)
    (id : create.adxId = decimalUInt r.adx) : u.creativeInfo[r.adx]? = some create := by
  obtain ⟨adx, found⟩ := mem_creatives.mp held
  have key := reads.keyed adx create found
  rw [id, atoiUInt_decimalUInt] at key
  rw [← key, found]

/-- What is asked for is no ban key of a creative for the exchange of the request. -/
theorem unbanned (reads : Reads u.creativeInfo) (canonical : Canonical u.creativeInfo)
    (push : u.time.push) (free : got (banAsks r) (banKeys u) = false)
    (found : u.creativeInfo[r.adx]? = some create) (group : create.creativeGroupId ≠ [])
    {m : AdMaterialInfo} (among : m ∈ create.materials) :
    ∀ key ∈ banAsks r, key ∉ materialBanKeys (decimalUInt r.adx) m := by
  intro key asked listed
  rw [← Bool.not_eq_true, got_iff] at free
  refine free ⟨key, asked, ?_⟩
  rw [banKeys, whenPushed, if_pos push]
  refine List.mem_append_right _ (List.mem_flatMap.mpr ⟨create, List.mem_filter.mpr ?_, ?_⟩)
  · exact ⟨mem_creatives.mpr ⟨_, found⟩, decide_eq_true group⟩
  · rw [adxId_eq reads canonical found]
    exact List.mem_flatMap.mpr ⟨m, among, listed⟩

/-- An order that bids 100 for places on exchange 1. -/
def bannerOrder : AdPlanningUnit where
  order := { executeId := 7, nice := adOrderBase, targetPriceType := 1, targetPrice := 100 }
  time := { push := true, day := [⟨1, 0, 0xffffff⟩] }
  area := [adAreaAll]
  pidInfo := [⟨1, adPidModeAll, []⟩]
  creativeInfo := (∅ : TreeMap UInt32 AdCreativeInfo).insert 1
    ⟨ascii "g1", ascii "1", [{ width := 300, height := 250, creativeType := 2 }]⟩

def sizedRequest (size : Bytes) : AdRtbRequest :=
  { AdRtbRequest.clear ⟨0, 0⟩ with
    adx := 1
    text := fun text => if text = .size then size else [] }

/-- A Monday morning, and a user nobody knows. -/
def quietWorld : MatchWorld := ⟨⟨1, 10⟩, 0, ⟨0, 0⟩, fun _ => none, fun _ => none⟩

def bannerResult : AdResult := [(0, ⟨false, adFilterNormal⟩)]

theorem banner_creatives {create : AdCreativeInfo} {adx : UInt32}
    (found : bannerOrder.creativeInfo[adx]? = some create) :
    adx = 1 ∧ create =
      ⟨ascii "g1", ascii "1", [{ width := 300, height := 250, creativeType := 2 }]⟩ := by
  rw [bannerOrder, TreeMap.getElem?_insert] at found
  split at found
  · next same => exact ⟨(compare_eq_iff_eq.mp same).symm, (Option.some.inj found).symm⟩
  · simp at found

theorem banner_reads : Reads bannerOrder.creativeInfo := by
  constructor
  · intro adx create found
    obtain ⟨rfl, rfl⟩ := banner_creatives found
    decide
  · intro adx create found m among
    obtain ⟨rfl, rfl⟩ := banner_creatives found
    rw [List.mem_singleton.mp among]
    exact List.not_mem_nil

theorem banner_canonical : Canonical bannerOrder.creativeInfo := by
  intro adx create found
  obtain ⟨rfl, rfl⟩ := banner_creatives found
  exact ⟨1, by decide, by decide⟩

end CreativeKeys
