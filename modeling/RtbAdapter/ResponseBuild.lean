import RtbAdapter.CreativeKeys
import RtbAdapter.DealRank
import RtbAdapter.OrderInterference

/-!
# The response to a request

For the order that is picked, `AdRtbEngineBuild` looks for a material of the size that
is asked for and fills the response from it. The filters have looked at the size up
to its first NUL, the search splits all of it.
-/

namespace ResponseBuild

open ByteWords CText PlanningUnit RtbBase FilterTables FilterMark RtbFilters FilterReferences
open FilterResults LoadedOrders MatchedOrders LastFilter OrderInterference DealRank FilterKeys
open CreativeKeys Std

/-- `AdRtbEngineGetMaterials` -/
def adRtbEngineGetMaterials (create : AdCreativeInfo) (size : Bytes) : Option AdMaterialInfo :=
  match strSplit size (ascii "x") with
  | [width, height] => create.materials.find? fun m =>
      m.width = atoiUInt (cStr width) && m.height = atoiUInt (cStr height)
  | _ => none

/-- What a response is filled with. `dev` is the region of the configuration. -/
def respond (dev : Bytes) (r : AdRtbRequest) (res : AdRtbResponse) (u : AdPlanningUnit)
    (create : AdCreativeInfo) (m : AdMaterialInfo) (unitPrice : AdUnitPrice) : AdRtbResponse where
  adx := r.adx
  text
    | .maxPrice => decimalUInt unitPrice.price
    | .flow => r.text .flow
    | .bidID => r.text .bidID
    | .pId => r.text .pId
    | .area => r.text .area
    | .clickUrl => m.clickUrl
    | .destUrl => m.destinationUrl
    | .html => m.materialUrl
    | .htmlMraid => m.mraidMaterialUrl
    | .category => m.category
    | .createGID => create.creativeGroupId
    | .creativeID => m.createId
    | .userID => r.text .userID
    | .userIP => r.text .userIP
    | .size => r.text .size
    | .uud => m.uuId
    | .materialID => m.materialId
    | .devType => match r.list .mobileDevice with
      | device :: _ => snprintf 256 (cStr device)
      | [] => res.text .devType
    | .region => dev
    | .duration => decimalUInt m.videoTime
    | .materailFormat => decimalUInt m.format
    | .creative => decimalUInt m.creativeType
    | .targetPriceType => decimalUInt u.order.targetPriceType
    | .execID => decimalUInt u.order.executeId
    | .advertiserId => decimalUInt u.order.advertiser
    | .targetPrice => decimalUInt u.order.targetPrice
    | .tanxID => u.order.tanxAdId
    | text => res.text text
  list
    | .monitorUrl => m.monitorUrl

/-- `none` is `AD_FAILURE`. -/
def adRtbEngineBuild (unit : Nat → AdPlanningUnit) (dev : Bytes) (r : AdRtbRequest)
    (res : AdRtbResponse) (unitPrice : AdUnitPrice) : Option AdRtbResponse := do
  let u := unit unitPrice.planningData
  let create ← u.creativeInfo[r.adx]?
  let m ← adRtbEngineGetMaterials create (r.text .size)
  return respond dev r res u create m unitPrice

variable {loaded : Loaded} {descriptions : AdMap AdTanxDescription} {world : MatchWorld}
  {r : AdRtbRequest} {create : AdCreativeInfo} {size : Bytes}

/-- The request excludes nothing of the material. Texts of a request end at their first NUL. -/
structure Suits (r : AdRtbRequest) (m : AdMaterialInfo) : Prop where
  size : sizeText m = cStr (r.text .size)
  create : m.creativeType ≠ 0 → decimalUInt m.creativeType ∉ (r.list .create).map cStr
  sensitive : m.category ≠ [] → cStr m.category ∉ (r.list .sensitive).map cStr
  category : m.category ≠ [] → cStr m.category ∉ (r.list .category).map cStr

theorem xSign : ascii "x" = [120] := rfl

theorem sizeText_parts (m : AdMaterialInfo) :
    sizeText m = decimalUInt m.width ++ 120 :: decimalUInt m.height := by
  rw [sizeText, xSign, List.append_assoc, List.singleton_append]

/-- Materials with the same size have the same width and height. -/
theorem sizeText_eq_iff {m m' : AdMaterialInfo} :
    sizeText m = sizeText m' ↔ m.width = m'.width ∧ m.height = m'.height := by
  rw [sizeText_parts, sizeText_parts,
    split_eq_iff (notMem_decimalUInt (by decide) _) (notMem_decimalUInt (by decide) _),
    decimalUInt_injective.eq_iff, decimalUInt_injective.eq_iff]

/-- A text that starts with a size splits into the width and what begins with the height. -/
theorem strSplit_pair (width height : UInt32) (rest : Bytes) :
    ∃ pieces, strSplit (decimalUInt width ++ 120 :: (decimalUInt height ++ rest)) (ascii "x") =
      decimalUInt width :: (decimalUInt height ++ rest.takeWhile (· ≠ 120)) :: pieces := by
  have clean : ∀ n : UInt32, (120 : UInt8) ∉ decimalUInt n := notMem_decimalUInt (by decide)
  have some' : ∀ n : UInt32, decimalUInt n ≠ [] := fun _ => decimal_ne_nil _
  obtain ⟨pieces, split⟩ := strSplitFrom_first (clean height) (some' height) rest
  refine ⟨pieces, ?_⟩
  rw [← split]
  have first := clean width
  have long := some' width
  generalize decimalUInt height ++ rest = behind
  generalize decimalUInt width = front at first long
  obtain ⟨b, digits, rfl⟩ := List.exists_cons_of_ne_nil long
  have other : ¬ b = 120 := fun sign => first (sign ▸ List.mem_cons_self)
  have started : (b :: digits ++ 120 :: behind).dropWhile (· ∈ ascii "x") =
      b :: digits ++ 120 :: behind := by
    rw [xSign, List.cons_append, List.dropWhile_cons]
    simp [other]
  rw [strSplit, started, xSign, strSplitFrom_cut first (by rwa [List.nil_append]),
    List.nil_append]

/-- Behind the C string of a text stands nothing, or its first NUL. -/
theorem cStr_rest (size : Bytes) :
    ∃ rest, size = cStr size ++ rest ∧ ∀ b ∈ rest.head?, b = 0 := by
  refine ⟨size.dropWhile (· ≠ 0), List.takeWhile_append_dropWhile.symm, fun b first => ?_⟩
  have nul := List.head?_dropWhile_not (fun b : UInt8 => decide (b ≠ 0)) size
  rw [Option.mem_def] at first
  rw [first] at nul
  simpa using nul

theorem strSplit_size {m : AdMaterialInfo} (same : sizeText m = cStr size) :
    ∃ tail pieces, strSplit size (ascii "x") =
      decimalUInt m.width :: (decimalUInt m.height ++ tail) :: pieces ∧
        cStr (decimalUInt m.height ++ tail) = decimalUInt m.height := by
  obtain ⟨rest, parts, nul⟩ := cStr_rest size
  rw [← same, sizeText_parts, List.append_assoc, List.cons_append] at parts
  obtain ⟨pieces, split⟩ := strSplit_pair m.width m.height rest
  refine ⟨rest.takeWhile (· ≠ 120), pieces, by rw [parts, split], ?_⟩
  have clean : ∀ b ∈ decimalUInt m.height, decide (b ≠ 0) = true := by
    intro b inside
    have visible : (0 : UInt8) ∉ decimalUInt m.height := notMem_decimalUInt (by decide) _
    simp only [ne_eq, decide_not, Bool.not_eq_true', decide_eq_false_iff_not]
    rintro rfl
    exact visible inside
  have stops : (rest.takeWhile (· ≠ 120)).takeWhile (· ≠ 0) = [] := by
    cases rest with
    | nil => rfl
    | cons b rest =>
      obtain rfl := nul b rfl
      rfl
  rw [cStr, List.takeWhile_append_of_pos clean, stops, List.append_nil]

/-- The search finds a material of the size exactly when the size splits into two pieces. -/
theorem getMaterials_size {m : AdMaterialInfo} (among : m ∈ create.materials)
    (same : sizeText m = cStr size) :
    ((strSplit size (ascii "x")).length = 2 →
      ∃ m' ∈ create.materials, adRtbEngineGetMaterials create size = some m' ∧
        sizeText m' = cStr size) ∧
    ((strSplit size (ascii "x")).length ≠ 2 → adRtbEngineGetMaterials create size = none) := by
  obtain ⟨tail, pieces, split, ends⟩ := strSplit_size same
  rw [adRtbEngineGetMaterials, split]
  cases pieces with
  | nil =>
    refine ⟨fun _ => ?_, fun other => absurd rfl other⟩
    dsimp only
    rw [ends, cStr_decimalUInt, atoiUInt_decimalUInt, atoiUInt_decimalUInt]
    cases found : create.materials.find? fun m' =>
        m'.width = m.width && m'.height = m.height with
    | none =>
      have missing := List.find?_eq_none.mp found m among
      simp at missing
    | some m' =>
      have fits := List.find?_some found
      simp only [Bool.and_eq_true, decide_eq_true_eq] at fits
      exact ⟨m', List.mem_of_find?_eq_some found, rfl, (sizeText_eq_iff.mpr fits).trans same⟩
  | cons piece pieces =>
    refine ⟨fun two => ?_, fun _ => rfl⟩
    simp at two

/-- An order in the map that a match returns has passed all filters in front of the last. -/
theorem gets_survives {a : Nat} (gets : Gets loaded descriptions world r a) :
    a ∈ (survivors loaded descriptions world r).map Prod.fst := by
  obtain ⟨got, matched, among⟩ := gets
  by_cases looks : Looks r world
  · by_cases late : Late r world
    · rw [candidates_barren (.inl late)] at matched
      obtain rfl := Option.some.inj matched
      exact absurd among List.not_mem_nil
    · obtain ⟨crashed, kept⟩ := candidates_looks loaded descriptions looks late
      by_cases crash : Crashes loaded r world (survivors loaded descriptions world r)
      · rw [crashed crash] at matched
        exact nomatch matched
      · obtain ⟨got', matched', keys⟩ := kept crash
        obtain rfl := Option.some.inj (matched'.symm.trans matched)
        exact ((keys a).mp among).1
  · obtain ⟨got', matched', keys⟩ := candidates_blind loaded descriptions looks
    obtain rfl := Option.some.inj (matched'.symm.trans matched)
    exact ((keys a).mp among).1

/-- No material of an order that passes is excluded, when it has the size. -/
theorem suits_of_passes {u : AdPlanningUnit} {clock : LocalTime} (reads : Reads u.creativeInfo)
    (canonical : Canonical u.creativeInfo) (passes : Passes u clock r) (push : u.time.push)
    (found : u.creativeInfo[r.adx]? = some create) (group : create.creativeGroupId ≠ [])
    {m : AdMaterialInfo} (among : m ∈ create.materials)
    (same : sizeText m = cStr (r.text .size)) : Suits r m := by
  have free := unbanned reads canonical push passes.ban found group among
  have clean : cStr m.category = m.category := cStr_eq_self (reads.category _ _ found m among)
  have filed : m.category ≠ [] → categoryKey (decimalUInt r.adx) m.category ∈
      materialBanKeys (decimalUInt r.adx) m := by
    intro some'
    refine List.mem_append_right _ ?_
    rw [if_pos some']
    exact List.mem_cons_self
  have excluded : ∀ list : List Bytes, (∀ c ∈ list, categoryAsk r.adx c ∈ banAsks r) →
      m.category ≠ [] → cStr m.category ∉ list.map cStr := by
    intro list asked some' inside
    obtain ⟨c, listed, text⟩ := List.mem_map.mp inside
    refine free _ (asked c listed) ?_
    rw [categoryAsk, text, clean]
    exact filed some'
  refine ⟨same, ?_, excluded _ ?_, excluded _ ?_⟩
  · intro typed inside
    obtain ⟨c, listed, text⟩ := List.mem_map.mp inside
    refine free (createAsk r c) ?_ (List.mem_append_left _ (List.mem_append_left _ ?_))
    · simp only [banAsks, List.mem_append, List.mem_map]
      exact .inl (.inl (.inr ⟨c, listed, rfl⟩))
    · rw [if_pos typed, createAsk, text, ← same]
      exact List.mem_cons_self
  · intro c listed
    simp only [banAsks, List.mem_append, List.mem_map]
    exact .inl (.inl (.inl (.inl (.inr ⟨c, listed, rfl⟩))))
  · intro c listed
    simp only [banAsks, List.mem_append, List.mem_map]
    exact .inl (.inl (.inl (.inr ⟨c, listed, rfl⟩)))

/-- The response is built, from a creative of the order that suits the request. -/
def BuiltWell (unit : Nat → AdPlanningUnit) (dev : Bytes) (r : AdRtbRequest) (res : AdRtbResponse)
    (unitPrice : AdUnitPrice) : Prop :=
  ∃ create m, (unit unitPrice.planningData).creativeInfo[r.adx]? = some create ∧
    m ∈ create.materials ∧ Suits r m ∧
    adRtbEngineBuild unit dev r res unitPrice =
      some (respond dev r res (unit unitPrice.planningData) create m unitPrice)

/-- What is picked is bid with a creative that suits exactly when the size splits into two. -/
theorem built_iff {rank : RankWorld} {result : AdResult} {unitPrice : AdUnitPrice} (dev : Bytes)
    (res : AdRtbResponse) (reads : ∀ placed ∈ loaded.orders, Reads placed.unit.creativeInfo)
    (canonical : ∀ placed ∈ loaded.orders, Canonical placed.unit.creativeInfo)
    (matched :
      filtersMatch (orderAt loaded.orders) { build loaded.orders with descriptions } world r =
      some result)
    (picked : adRtbRankChoice (orderAt loaded.orders) rank r result = some unitPrice) :
    BuiltWell (orderAt loaded.orders) dev r res unitPrice ↔
      (strSplit (r.text .size) (ascii "x")).length = 2 := by
  have gets : Gets loaded descriptions world r unitPrice.planningData := by
    refine ⟨_, congrArg (Option.map _) matched, rankChoice_mem picked⟩
  have listed := gets_survives gets
  obtain ⟨placed, inside, address⟩ := List.mem_map.mp (Sound.keys_known sound_survivors listed)
  rw [← address] at listed
  have unit := orderAt_address loaded.addresses inside
  have passes := ((survives_iff inside).mp listed).passes
  obtain ⟨push, create, held, id, group, m, among, same⟩ :=
    (got_size (canonical placed inside)).mp passes.asked.size
  have found := found_of_adxId (reads placed inside) held id
  obtain ⟨two, other⟩ := getMaterials_size among same
  have built : adRtbEngineBuild (orderAt loaded.orders) dev r res unitPrice =
      (adRtbEngineGetMaterials create (r.text .size)).map fun m =>
        respond dev r res placed.unit create m unitPrice := by
    rw [adRtbEngineBuild, ← address, unit, found]
    change (adRtbEngineGetMaterials create (r.text .size)).bind _ = _
    cases adRtbEngineGetMaterials create (r.text .size) <;> rfl
  rw [BuiltWell, built, ← address, unit]
  constructor
  · rintro ⟨_, _, -, -, -, done⟩
    by_contra uneven
    rw [other uneven] at done
    exact nomatch done
  · intro even
    obtain ⟨m', among', got, same'⟩ := two even
    refine ⟨create, m', found, among', ?_, by rw [got]; rfl⟩
    exact suits_of_passes (reads placed inside) (canonical placed inside) passes push found group
      among' same'

def evenRank : RankWorld :=
  ⟨FloatFormat.binary32.round (1 / 2), fun x rank => some (x.value ^ rank), fun _ => ∅,
    fun _ => 0, 0, 0⟩

def bannerPrice : AdUnitPrice := ⟨0, 7, adOrderCpm, 100⟩

theorem single_reads : ∀ placed ∈ (single bannerOrder).orders, Reads placed.unit.creativeInfo := by
  intro placed inside
  obtain rfl := List.mem_singleton.mp inside
  exact banner_reads

theorem single_canonical :
    ∀ placed ∈ (single bannerOrder).orders, Canonical placed.unit.creativeInfo := by
  intro placed inside
  obtain rfl := List.mem_singleton.mp inside
  exact banner_canonical

theorem banner_built :
    BuiltWell (orderAt (single bannerOrder).orders) [] (sizedRequest (ascii "300x250")) .clear
      bannerPrice := by
  have matched : filtersMatch (orderAt (single bannerOrder).orders)
      { build (single bannerOrder).orders with descriptions := [] } quietWorld
      (sizedRequest (ascii "300x250")) = some bannerResult := by
    decide
  have picked : adRtbRankChoice (orderAt (single bannerOrder).orders) evenRank
      (sizedRequest (ascii "300x250")) bannerResult = some bannerPrice := rfl
  exact (built_iff [] .clear single_reads single_canonical matched picked).mpr (by decide)

/-- A size that goes on behind a NUL passes the filters and finds no material. -/
theorem hidden_size_unbuilt :
    ¬ ∀ (loaded : Loaded) (descriptions : AdMap AdTanxDescription) (world : MatchWorld)
      (r : AdRtbRequest) (rank : RankWorld) (result : AdResult) (unitPrice : AdUnitPrice)
      (dev : Bytes)
      (res : AdRtbResponse), (∀ placed ∈ loaded.orders, Reads placed.unit.creativeInfo) →
      (∀ placed ∈ loaded.orders, Canonical placed.unit.creativeInfo) →
      filtersMatch (orderAt loaded.orders) { build loaded.orders with descriptions } world r =
        some result →
      adRtbRankChoice (orderAt loaded.orders) rank r result = some unitPrice →
      BuiltWell (orderAt loaded.orders) dev r res unitPrice := by
  intro all
  have matched : filtersMatch (orderAt (single bannerOrder).orders)
      { build (single bannerOrder).orders with descriptions := [] } quietWorld
      (sizedRequest (ascii "300x250\x00x0")) = some bannerResult := by
    decide
  have picked : adRtbRankChoice (orderAt (single bannerOrder).orders) evenRank
      (sizedRequest (ascii "300x250\x00x0")) bannerResult = some bannerPrice := rfl
  obtain ⟨create, m, found, -, -, built⟩ :=
    all (single bannerOrder) [] quietWorld _ evenRank _ _ [] .clear
    single_reads single_canonical matched picked
  obtain ⟨-, rfl⟩ := banner_creatives found
  have unbuilt : (adRtbEngineBuild (orderAt (single bannerOrder).orders) []
      (sizedRequest (ascii "300x250\x00x0")) .clear bannerPrice).isNone = true := rfl
  rw [built] at unbuilt
  exact absurd unbuilt Bool.false_ne_true

end ResponseBuild
