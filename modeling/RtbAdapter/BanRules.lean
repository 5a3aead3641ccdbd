import RtbAdapter.CreativeKeys
import RtbAdapter.RemoteMatch

/-!
# Bans and what they mean

Seven kinds of keys stand in one table. A key is meant by one kind of lookup; a lookup may
find a key that it does not mean, as it is the same text. The filter is exact where such
keys belong to orders that are banned anyway.
-/

namespace BanRules

open ByteWords CText JsonValues PlanningUnit PlanningData RtbBase FilterTables FilterKeys
open FilterReferences FilterResults LoadedOrders MatchedOrders CreativeKeys PlanningUpdate Std

/-- What a request looks up. -/
inductive Ask where
  | place
  | category (text : Bytes)
  | creative (text : Bytes)
  | numbered (text : Bytes)

/-- What an order is filed under. -/
inductive Key where
  | content (entry : Bytes)
  | listed (entry : Bytes)
  | creative (adx : Bytes) (m : AdMaterialInfo)
  | format (adx : Bytes) (m : AdMaterialInfo)
  | category (adx text : Bytes)

def Ask.text (r : AdRtbRequest) : Ask → Bytes
  | place => r.text .pId
  | category text => categoryAsk r.adx text
  | creative text => createAsk r text
  | numbered text => adxKey r.adx text

/-- `CRT_%s_%dx%d_%d` and `FMT_%s_%dx%d_%d` -/
def sizedKey (tag : String) (adx : Bytes) (m : AdMaterialInfo) (n : UInt32) : Bytes :=
  snprintf 128 (ascii tag ++ adx ++ ascii "_" ++ sizeText m ++ ascii "_" ++ decimalUInt n)

def Key.text : Key → Bytes
  | content entry => entry
  | listed entry => entry
  | creative adx m => sizedKey "CRT_" adx m m.creativeType
  | format adx m => sizedKey "FMT_" adx m m.format
  | category adx text => categoryKey adx text

def asksOf (r : AdRtbRequest) : List Ask :=
  [.place] ++ (r.list .sensitive).map .category ++ (r.list .category).map .category ++
    (r.list .create).map .creative ++ [.numbered (r.text .pId)] ++
    (r.list .siteCategory).map .numbered

def materialKeys (adx : Bytes) (m : AdMaterialInfo) : List Key :=
  (if m.creativeType ≠ 0 then [.creative adx m] else []) ++
    (if m.format ≠ 0 then [.format adx m] else []) ++
    (if m.category ≠ [] then
      .category adx m.category ::
        (if atoi adx = adProtocolKeyAdxBaidu then [.category adx (m.category.take 2)] else [])
    else [])

def keysOf (u : AdPlanningUnit) : List Key :=
  u.order.banContent.map .content ++ (u.banPidList.getD []).map .listed ++
    ((creatives u).filter fun c => c.creativeGroupId ≠ []).flatMap fun c =>
      c.materials.flatMap (materialKeys c.adxId)

theorem banAsks_eq (r : AdRtbRequest) : banAsks r = (asksOf r).map (Ask.text r) := by
  have category : Ask.text r ∘ Ask.category = categoryAsk r.adx := by
    funext text
    rw [Function.comp_apply, Ask.text]
  have creative : Ask.text r ∘ Ask.creative = createAsk r := by
    funext text
    rw [Function.comp_apply, Ask.text]
  have numbered : Ask.text r ∘ Ask.numbered = adxKey r.adx := by
    funext text
    rw [Function.comp_apply, Ask.text]
  simp only [banAsks, asksOf, List.map_append, List.map_map, List.map_cons, List.map_nil, category,
    creative, numbered, Ask.text]

theorem materialBanKeys_eq (adx : Bytes) (m : AdMaterialInfo) :
    materialBanKeys adx m = (materialKeys adx m).map Key.text := by
  rw [materialBanKeys, materialKeys, List.map_append, List.map_append]
  split <;> split <;> split <;> try split
  all_goals rfl

theorem banKeys_eq (u : AdPlanningUnit) :
    banKeys u = whenPushed u ((keysOf u).map Key.text) := by
  have materials : ∀ c : AdCreativeInfo, c.materials.flatMap (materialBanKeys c.adxId) =
      (c.materials.flatMap (materialKeys c.adxId)).map Key.text := by
    intro c
    rw [List.map_flatMap]
    exact congrArg (c.materials.flatMap ·) (funext (materialBanKeys_eq c.adxId))
  simp only [banKeys, keysOf, List.map_append, List.map_map, List.map_flatMap, materials]
  have content : Key.text ∘ Key.content = id := rfl
  have listed : Key.text ∘ Key.listed = id := rfl
  rw [content, listed, List.map_id, List.map_id]

/-- A lookup means a key of its own kind, with the same number and the whole text. -/
def Meant (r : AdRtbRequest) : Ask → Key → Prop
  | .place, .listed entry => r.text .pId = entry
  | .numbered text, .content entry => entry = decimal r.adx.toNat ++ 95 :: text
  | .category text, .category adx category => adx = decimal r.adx.toNat ∧ text = category
  | .creative text, .creative adx m =>
    adx = decimal r.adx.toNat ∧ r.text .size = sizeText m ∧ text = decimalUInt m.creativeType
  | _, _ => False

/-- The ban content of an order names the exchange of a request with its place or with one of
its site categories. -/
def NamedContent (u : AdPlanningUnit) (r : AdRtbRequest) : Prop :=
  ∃ text ∈ r.text .pId :: r.list .siteCategory,
    decimal r.adx.toNat ++ 95 :: text ∈ u.order.banContent

/-- The materials of an order for the exchange of a request. -/
def Material (u : AdPlanningUnit) (r : AdRtbRequest) (m : AdMaterialInfo) : Prop :=
  ∃ create ∈ creatives u, create.adxId = decimal r.adx.toNat ∧ create.creativeGroupId ≠ [] ∧
    m ∈ create.materials

/-- A material has an excluded category, or one whose first two characters are excluded. -/
def NamedCategory (u : AdPlanningUnit) (r : AdRtbRequest) : Prop :=
  ∃ m, Material u r m ∧ m.category ≠ [] ∧ ∃ text ∈ r.list .sensitive ++ r.list .category,
    text = m.category ∨ (r.adx.toNat : Int) = adProtocolKeyAdxBaidu ∧ text = m.category.take 2

/-- A material of the requested size has a type, and an excluded one. -/
def NamedCreative (u : AdPlanningUnit) (r : AdRtbRequest) : Prop :=
  ∃ m, Material u r m ∧ m.creativeType ≠ 0 ∧ r.text .size = sizeText m ∧
    decimalUInt m.creativeType ∈ r.list .create

/-- The advanced list of an order has the place of a request. -/
def Listed (u : AdPlanningUnit) (r : AdRtbRequest) : Prop := r.text .pId ∈ u.banPidList.getD []

/-- The bans with the number of the exchange. -/
def Numbered (u : AdPlanningUnit) (r : AdRtbRequest) : Prop :=
  NamedContent u r ∨ NamedCategory u r ∨ NamedCreative u r

def Banned (u : AdPlanningUnit) (r : AdRtbRequest) : Prop := Listed u r ∨ Numbered u r

/-- A lookup finds a key that it does not mean. -/
def Stray (u : AdPlanningUnit) (r : AdRtbRequest) : Prop :=
  ∃ ask ∈ asksOf r, ∃ key ∈ keysOf u, ask.text r = key.text ∧ ¬ Meant r ask key

variable {u : AdPlanningUnit} {r : AdRtbRequest}

@[simp] theorem mem_asksOf {ask : Ask} : ask ∈ asksOf r ↔
    match ask with
    | .place => True
    | .category text => text ∈ r.list .sensitive ++ r.list .category
    | .creative text => text ∈ r.list .create
    | .numbered text => text ∈ r.text .pId :: r.list .siteCategory := by
  cases ask <;> simp [asksOf, or_comm, eq_comm]

theorem mem_materialKeys {adx : Bytes} {m : AdMaterialInfo} {key : Key} :
    key ∈ materialKeys adx m ↔
      match key with
      | .creative adx' m' => adx' = adx ∧ m' = m ∧ m.creativeType ≠ 0
      | .format adx' m' => adx' = adx ∧ m' = m ∧ m.format ≠ 0
      | .category adx' text => adx' = adx ∧ m.category ≠ [] ∧ (text = m.category ∨
          atoi adx = adProtocolKeyAdxBaidu ∧ text = m.category.take 2)
      | _ => False := by
  cases key <;> simp only [materialKeys, List.mem_append] <;> grind

/-- The keys of the creatives. -/
def Created (u : AdPlanningUnit) (key : Key) : Prop :=
  ∃ create ∈ creatives u, create.creativeGroupId ≠ [] ∧ ∃ m ∈ create.materials,
    key ∈ materialKeys create.adxId m

theorem mem_keysOf {key : Key} : key ∈ keysOf u ↔
    match key with
    | .content entry => entry ∈ u.order.banContent
    | .listed entry => entry ∈ u.banPidList.getD []
    | key => Created u key := by
  have none : ∀ entry, ¬ Created u (.content entry) ∧ ¬ Created u (.listed entry) := by
    intro entry
    constructor <;> rintro ⟨create, -, -, m, -, listed⟩ <;> exact mem_materialKeys.mp listed
  have created : (key ∈ ((creatives u).filter fun c => c.creativeGroupId ≠ []).flatMap fun c =>
      c.materials.flatMap (materialKeys c.adxId)) ↔ Created u key := by
    simp [Created, and_assoc]
  rw [keysOf, List.mem_append, List.mem_append, created]
  cases key <;> simp [none]

/-- What holds of an order with push that was loaded with decimal ids. -/
structure Filed (u : AdPlanningUnit) : Prop where
  push : u.time.push
  ids : ∀ create ∈ creatives u, ∃ adx : UInt32, create.adxId = decimal adx.toNat
  content : ∀ entry ∈ u.order.banContent, entry.length ≤ 127 ∧ 0 ∉ entry
  category : ∀ create ∈ creatives u, ∀ m ∈ create.materials, 0 ∉ m.category

theorem atoi_id (adx : UInt32) :
    atoi (decimal adx.toNat) = adProtocolKeyAdxBaidu ↔
      (adx.toNat : Int) = adProtocolKeyAdxBaidu := by
  have upper := adx.toNat_lt
  obtain ⟨k, wrapped⟩ := toInt32_sub_dvd adx.toNat
  have range := toInt32_range adx.toNat
  rw [atoi_natCast, min_eq_right (by omega), adProtocolKeyAdxBaidu]
  omega

/-- What a lookup means, kind by kind. -/
theorem meant_cases {ask : Ask} {key : Key} (meant : Meant r ask key) :
    (ask = .place ∧ key = .listed (r.text .pId)) ∨
    (∃ text, ask = .numbered text ∧ key = .content (decimal r.adx.toNat ++ 95 :: text)) ∨
    (∃ text, ask = .category text ∧ key = .category (decimal r.adx.toNat) text) ∨
    ∃ m, ask = .creative (decimalUInt m.creativeType) ∧ r.text .size = sizeText m ∧
      key = .creative (decimal r.adx.toNat) m := by
  cases ask with
  | place =>
    cases key with
    | listed entry => exact .inl ⟨rfl, congrArg Key.listed (Eq.symm meant)⟩
    | _ => exact meant.elim
  | numbered text =>
    cases key with
    | content entry => exact .inr (.inl ⟨text, rfl, congrArg Key.content meant⟩)
    | _ => exact meant.elim
  | category text =>
    cases key with
    | category adx category =>
      obtain ⟨rfl, rfl⟩ := meant
      exact .inr (.inr (.inl ⟨text, rfl, rfl⟩))
    | _ => exact meant.elim
  | creative text =>
    cases key with
    | creative adx m =>
      obtain ⟨number, size, type⟩ := meant
      exact .inr (.inr (.inr ⟨m, congrArg Ask.creative type, size,
        congrArg (Key.creative · m) number⟩))
    | _ => exact meant.elim

/-- An order is banned when a lookup means one of its keys. -/
theorem banned_iff : Banned u r ↔ ∃ ask ∈ asksOf r, ∃ key ∈ keysOf u, Meant r ask key := by
  constructor
  · rintro (listed | ⟨text, asked, listed⟩ |
      ⟨m, ⟨create, held, id, group, among⟩, some', text, asked, same⟩ |
      ⟨m, ⟨create, held, id, group, among⟩, type, size, asked⟩)
    · exact ⟨.place, mem_asksOf.mpr trivial, .listed _, mem_keysOf.mpr listed, rfl⟩
    · exact ⟨.numbered text, mem_asksOf.mpr asked, .content _, mem_keysOf.mpr listed, rfl⟩
    · refine ⟨.category text, mem_asksOf.mpr asked, .category create.adxId text,
        mem_keysOf.mpr ⟨create, held, group, m, among, mem_materialKeys.mpr ⟨rfl, some', ?_⟩⟩,
        id, rfl⟩
      rwa [id, atoi_id]
    · exact ⟨.creative (decimalUInt m.creativeType), mem_asksOf.mpr asked, .creative create.adxId m,
        mem_keysOf.mpr ⟨create, held, group, m, among, mem_materialKeys.mpr ⟨rfl, rfl, type⟩⟩,
        id, size, rfl⟩
  · rintro ⟨ask, asked, key, filed, meant⟩
    rw [mem_asksOf] at asked
    rw [mem_keysOf] at filed
    rcases meant_cases meant with
      ⟨rfl, rfl⟩ | ⟨text, rfl, rfl⟩ | ⟨text, rfl, rfl⟩ | ⟨m, rfl, size, rfl⟩
    · exact .inl filed
    · exact .inr (.inl ⟨text, asked, filed⟩)
    · obtain ⟨create, held, group, m, among, key⟩ := filed
      obtain ⟨id, some', same⟩ := mem_materialKeys.mp key
      rw [← id, atoi_id] at same
      exact .inr (.inr (.inl ⟨m, ⟨create, held, id.symm, group, among⟩, some', text, asked, same⟩))
    · obtain ⟨create, held, group, m', among, key⟩ := filed
      obtain ⟨id, rfl, type⟩ := mem_materialKeys.mp key
      have material : Material u r m := ⟨create, held, id.symm, group, among⟩
      exact .inr (.inr (.inr ⟨m, material, type, size, asked⟩))

/-- Texts that differ behind a short front are printed differently. -/
theorem front_ne {front s t : Bytes} {a b : UInt8} {size : Nat} (differ : a ≠ b)
    (room : front.length + 1 < size) :
    snprintf size (front ++ a :: s) ≠ snprintf size (front ++ b :: t) := by
  intro same
  have here := congrArg (·[front.length]?) same
  simp only [snprintf] at here
  rw [List.getElem?_take_of_lt (by omega), List.getElem?_take_of_lt (by omega)] at here
  simp at here
  exact differ here

/-- `%d` gives a number from `2 ^ 31` on a sign. -/
theorem signed_ne {front s t : Bytes} {adx : UInt32} (large : 2 ^ 31 ≤ adx.toNat)
    (short : front.length ≤ 100) :
    snprintf 128 (front ++ (decimalUInt adx ++ s)) ≠
      snprintf 128 (front ++ (decimal adx.toNat ++ t)) := by
  obtain ⟨first, rest, printed⟩ := List.exists_cons_of_ne_nil (decimal_ne_nil adx.toNat)
  have digit : isDigit first := decimal_isDigit (n := adx.toNat) first (by
    rw [printed]
    exact List.mem_cons_self)
  have sign : ∃ rest, decimalUInt adx = 45 :: rest := by
    obtain ⟨k, wrapped⟩ := toInt32_sub_dvd adx.toNat
    have range := toInt32_range adx.toNat
    have upper := adx.toNat_lt
    obtain ⟨m, value⟩ : ∃ m : Nat, toInt32 adx.toNat = Int.negSucc m :=
      ⟨(-1 - toInt32 adx.toNat).toNat, by omega⟩
    exact ⟨_, by rw [decimalUInt, value, decimal_negSucc]⟩
  obtain ⟨rest', negative⟩ := sign
  rw [printed, negative, List.cons_append, List.cons_append]
  refine front_ne ?_ (by omega)
  rintro rfl
  exact absurd digit (by decide)

theorem decimalUInt_small {adx : UInt32} (small : adx.toNat < 2 ^ 31) :
    decimalUInt adx = decimal adx.toNat := by
  rw [decimalUInt, toInt32_of_range (by omega) (by omega)]

theorem categoryAsk_text (adx : UInt32) (text : Bytes) : categoryAsk adx text =
    snprintf 128 (ascii "CAT_" ++ (decimalUInt adx ++ (ascii "_" ++ cStr text))) := by
  simp only [categoryAsk, categoryKey, List.append_assoc]

theorem createAsk_text (r : AdRtbRequest) (text : Bytes) : createAsk r text =
    snprintf 128 (ascii "CRT_" ++ (decimalUInt r.adx ++
      (ascii "_" ++ (cStr (r.text .size) ++ (ascii "_" ++ cStr text))))) := by
  simp only [createAsk, List.append_assoc]

theorem sizedKey_text (adx : Bytes) (m : AdMaterialInfo) : (Key.creative adx m).text =
    snprintf 128 (ascii "CRT_" ++ (adx ++
      (ascii "_" ++ (sizeText m ++ (ascii "_" ++ decimalUInt m.creativeType))))) := by
  simp only [Key.text, sizedKey, List.append_assoc]

theorem sizeText_clean (m : AdMaterialInfo) : 0 ∉ sizeText m := by
  have width := notMem_decimalUInt (b := 0) (by decide) m.width
  have height := notMem_decimalUInt (b := 0) (by decide) m.height
  simp only [sizeText, List.mem_append, not_or]
  exact ⟨⟨width, by decide⟩, height⟩

theorem category_clean (filed : Filed u) {adx text : Bytes}
    (inside : Key.category adx text ∈ keysOf u) : 0 ∉ text := by
  obtain ⟨create, held, -, m, among, key⟩ := mem_keysOf.mp inside
  have clean := filed.category create held m among
  rcases (mem_materialKeys.mp key).2.2 with rfl | ⟨-, rfl⟩
  · exact clean
  · exact fun zero => clean (List.mem_of_mem_take zero)

/-- With a number below `2 ^ 31` a lookup finds what it means. -/
theorem text_of_meant (filed : Filed u) (small : r.adx.toNat < 2 ^ 31) {ask : Ask} {key : Key}
    (inside : key ∈ keysOf u) (meant : Meant r ask key) : ask.text r = key.text := by
  have number := decimalUInt_small small
  rcases meant_cases meant with
    ⟨rfl, rfl⟩ | ⟨text, rfl, rfl⟩ | ⟨text, rfl, rfl⟩ | ⟨m, rfl, size, rfl⟩
  · rfl
  · obtain ⟨short, clean⟩ := filed.content _ (mem_keysOf.mp inside)
    have clean' : 0 ∉ text := fun zero => clean (by simp [zero])
    rw [Ask.text, Key.text, adxKey_text, number, cStr_eq_self clean', snprintf_whole (by omega)]
  · have clean := category_clean filed inside
    rw [Ask.text, Key.text, categoryAsk, number, cStr_eq_self clean]
  · rw [Ask.text, createAsk_text, sizedKey_text, number, size, cStr_decimalUInt,
      cStr_eq_self (sizeText_clean m)]

/-- With a number from `2 ^ 31` on only the place itself is found where it is meant. -/
theorem listed_of_meant (filed : Filed u) (large : 2 ^ 31 ≤ r.adx.toNat) {ask : Ask} {key : Key}
    (inside : key ∈ keysOf u) (meant : Meant r ask key) (same : ask.text r = key.text) :
    Listed u r := by
  rcases meant_cases meant with
    ⟨rfl, rfl⟩ | ⟨text, rfl, rfl⟩ | ⟨text, rfl, rfl⟩ | ⟨m, rfl, size, rfl⟩
  · exact mem_keysOf.mp inside
  · obtain ⟨short, -⟩ := filed.content _ (mem_keysOf.mp inside)
    have printed : snprintf 128 (decimal r.adx.toNat ++ 95 :: text) =
        decimal r.adx.toNat ++ 95 :: text := snprintf_whole (by omega)
    rw [Ask.text, Key.text, adxKey_text, ← printed] at same
    have front : ([] : Bytes).length ≤ 100 := Nat.zero_le _
    have differ := signed_ne (s := 95 :: cStr text) (t := 95 :: text) large front
    rw [List.nil_append, List.nil_append] at differ
    exact absurd same differ
  · rw [Ask.text, Key.text, categoryAsk_text, categoryKey, List.append_assoc,
      List.append_assoc] at same
    exact absurd same (signed_ne large (by decide))
  · rw [Ask.text, createAsk_text, sizedKey_text] at same
    exact absurd same (signed_ne large (by decide))

section Reader

variable {parse : Bytes → Option JsonValue} {calendar : PlanningData.Calendar} {redis : Redis}

/-- A place of a banned advertiser is printed into a buffer. -/
theorem banPlaces_printed {answer : Bytes} {places : List Bytes}
    (read : banPlaces parse answer = some (some places)) :
    ∀ entry ∈ places, entry.length ≤ 127 ∧ 0 ∉ entry := by
  rw [banPlaces] at read
  split at read
  · obtain rfl := Option.some.inj (Option.some.inj read)
    exact fun entry listed => absurd listed List.not_mem_nil
  split at read
  · cases read
  obtain ⟨items, -, read⟩ := Option.bind_eq_some_iff.mp read
  obtain ⟨lists, each, read⟩ := Option.bind_eq_some_iff.mp read
  obtain rfl := Option.some.inj (Option.some.inj read)
  have printed : ∀ list ∈ lists, ∀ entry ∈ list, entry.length ≤ 127 ∧ 0 ∉ entry := by
    refine mapM_all (fun item list done => ?_) items lists each
    obtain ⟨member, -, done⟩ := Option.bind_eq_some_iff.mp done
    cases member with
    | false =>
      obtain rfl := Option.some.inj done
      exact fun entry listed => absurd listed List.not_mem_nil
    | true =>
      obtain ⟨field, -, done⟩ := Option.bind_eq_some_iff.mp done
      obtain ⟨adx, number, done⟩ := Option.bind_eq_some_iff.mp done
      obtain ⟨pids, texts, done⟩ := Option.bind_eq_some_iff.mp done
      obtain rfl := Option.some.inj done
      have clean : ∀ pid ∈ pids, 0 ∉ pid := by
        rcases CreativeKeys.optional_cases texts with rfl | ⟨field, texts⟩
        · exact fun pid listed => absurd listed List.not_mem_nil
        · obtain ⟨items, -, texts⟩ := Option.bind_eq_some_iff.mp texts
          exact mapM_all (fun _ _ => asString_clean) items pids texts
      intro entry listed
      obtain ⟨pid, among, rfl⟩ := List.mem_map.mp listed
      refine ⟨List.length_take_le _ _, fun zero => ?_⟩
      have inside := List.mem_of_mem_take zero
      simp only [List.mem_append] at inside
      rcases inside with (first | sign) | last
      · exact asString_clean number first
      · exact absurd sign (by decide)
      · exact clean pid among last
  intro entry listed
  obtain ⟨list, there, inside⟩ := List.mem_flatten.mp listed
  exact printed list there entry inside

/-- What the reader makes of an order with push and decimal ids. -/
theorem filed_loaded {map : OrderMap} (holds : HoldsOrders parse calendar redis map) {id : UInt32}
    {placed : Allocated} (found : map[id]? = some placed) (push : placed.unit.time.push)
    (ids : ∀ create ∈ creatives placed.unit, ∃ adx : UInt32, create.adxId = decimal adx.toNat) :
    Filed placed.unit := by
  have shown := holds.shown id
  rw [found, TreeMap.getElem?_map] at shown
  obtain ⟨unit, stored, same⟩ := Option.map_eq_some_iff.mp shown.symm
  have reads : Reads unit.creativeInfo :=
    acceptedOrders_all (fun _ _ _ => dataParse_reads) (PlanningUpdate.stored redis) id unit stored
  have made : placed.unit = withContent parse redis unit := same.symm
  refine ⟨push, ids, fun entry listed => ?_, fun create held m among => ?_⟩
  · rw [made] at listed
    obtain ⟨banId, -, inside⟩ := List.mem_flatMap.mp listed
    rw [placesOf] at inside
    cases answer : banPlaces parse (redis.ban (banKey banId)) with
    | none => simp [answer] at inside
    | some places =>
      cases places with
      | none => simp [answer] at inside
      | some places =>
        rw [answer] at inside
        exact banPlaces_printed answer entry inside
  · rw [made] at held
    obtain ⟨adx, there⟩ := mem_creatives.mp held
    exact reads.category adx create there m among

end Reader

variable {loaded : Loaded} {result : AdResult}

/-- The filter removes an order of the result exactly when it is banned. -/
def Exact (loaded : Loaded) (result : AdResult) (r : AdRtbRequest) : Prop :=
  ∀ placed ∈ loaded.orders, placed.address ∈ result.map Prod.fst →
    (placed.address ∉ (eraseAll (orderAt loaded.orders) (tableOf banKeys loaded.orders)
      (banAsks r) result).map Prod.fst ↔ Banned placed.unit r)

theorem got_iff_pair (push : u.time.push) : got (banAsks r) (banKeys u) ↔
    ∃ ask ∈ asksOf r, ∃ key ∈ keysOf u, ask.text r = key.text := by
  rw [RemoteMatch.got_eq_true, banAsks_eq, banKeys_eq, whenPushed, if_pos push]
  simp [eq_comm]

/-- An order is removed when some lookup finds some key of it. -/
theorem removed_iff (sound : Sound loaded result) {placed : Allocated}
    (inside : placed ∈ loaded.orders) (there : placed.address ∈ result.map Prod.fst)
    (push : placed.unit.time.push) :
    placed.address ∉ (eraseAll (orderAt loaded.orders) (tableOf banKeys loaded.orders)
        (banAsks r) result).map Prod.fst ↔
      ∃ ask ∈ asksOf r, ∃ key ∈ keysOf placed.unit, ask.text r = key.text := by
  rw [← got_iff_pair push]
  have unit := orderAt_address loaded.addresses inside
  obtain ⟨entry, held, address⟩ := List.mem_map.mp there
  constructor
  · intro absent
    by_contra free
    refine absent (List.mem_map.mpr ⟨entry, (mem_eraseAll sound entry).mpr ⟨held, ?_⟩, address⟩)
    rw [address, unit]
    exact Bool.eq_false_iff.mpr free
  · intro found kept
    obtain ⟨entry', kept, address'⟩ := List.mem_map.mp kept
    have free := ((mem_eraseAll sound entry').mp kept).2
    rw [address', unit, found] at free
    cases free

/-- The filter is exact when each order with a key that is found though not meant is banned
anyway, and each order that is banned under a number with a sign is found in another way. -/
theorem ban_exact_iff (loaded : Loaded) (filed : ∀ placed ∈ loaded.orders, Filed placed.unit)
    (result : AdResult) (sound : Sound loaded result) (r : AdRtbRequest) :
    Exact loaded result r ↔
      ∀ placed ∈ loaded.orders, placed.address ∈ result.map Prod.fst →
        (Stray placed.unit r → Banned placed.unit r) ∧
          (2 ^ 31 ≤ r.adx.toNat → Numbered placed.unit r →
            Listed placed.unit r ∨ Stray placed.unit r) := by
  refine forall₂_congr fun placed inside => forall_congr' fun there => ?_
  have known := filed placed inside
  rw [removed_iff sound inside there known.push]
  constructor
  · intro exact'
    refine ⟨fun ⟨ask, asked, key, listed, same, _⟩ => exact'.mp ⟨ask, asked, key, listed, same⟩, ?_⟩
    intro large numbered
    obtain ⟨ask, asked, key, listed, same⟩ := exact'.mpr (.inr numbered)
    by_cases meant : Meant r ask key
    · exact .inl (listed_of_meant known large listed meant same)
    · exact .inr ⟨ask, asked, key, listed, same, meant⟩
  · rintro ⟨stray, found⟩
    constructor
    · rintro ⟨ask, asked, key, listed, same⟩
      by_cases meant : Meant r ask key
      · exact banned_iff.mpr ⟨ask, asked, key, listed, meant⟩
      · exact stray ⟨ask, asked, key, listed, same, meant⟩
    · intro banned
      rcases Nat.lt_or_ge r.adx.toNat (2 ^ 31) with small | large
      · obtain ⟨ask, asked, key, listed, meant⟩ := banned_iff.mp banned
        exact ⟨ask, asked, key, listed, text_of_meant known small listed meant⟩
      · have direct : Listed placed.unit r ∨ Stray placed.unit r := banned.elim .inl (found large)
        rcases direct with direct | ⟨ask, asked, key, listed, same, -⟩
        · exact ⟨.place, mem_asksOf.mpr trivial, .listed _, mem_keysOf.mpr direct, rfl⟩
        · exact ⟨ask, asked, key, listed, same⟩

/-- An order that is banned from place 77 of exchange 6. -/
def bannedOrder : AdPlanningUnit where
  order := { executeId := 7, banContent := [ascii "6_77"] }
  time := { push := true }

/-- A request of exchange 1 for a place whose name is the key of that ban. -/
def namedRequest : AdRtbRequest :=
  { AdRtbRequest.clear ⟨0, 0⟩ with
    adx := 1
    text := fun text => if text = .pId then ascii "6_77" else [] }

theorem bannedOrder_creatives (create : AdCreativeInfo) : create ∉ creatives bannedOrder := by
  rw [mem_creatives]
  simp [bannedOrder]

theorem bannedOrder_filed : ∀ placed ∈ (single bannedOrder).orders, Filed placed.unit := by
  intro placed inside
  obtain rfl := List.mem_singleton.mp inside
  constructor
  · rfl
  · exact fun create held => absurd held (bannedOrder_creatives create)
  · decide
  · exact fun create held => absurd held (bannedOrder_creatives create)

theorem bannedOrder_sound : Sound (single bannedOrder) [(0, {})] :=
  ⟨List.pairwise_singleton _ _, fun entry inside => by
    rw [List.mem_singleton.mp inside]
    exact List.mem_cons_self⟩

theorem bannedOrder_exact_iff : Exact (single bannedOrder) [(0, {})] namedRequest ↔
    ∀ placed ∈ (single bannedOrder).orders, placed.address ∈ [0] →
      (Stray placed.unit namedRequest → Banned placed.unit namedRequest) ∧
        (2 ^ 31 ≤ namedRequest.adx.toNat → Numbered placed.unit namedRequest →
          Listed placed.unit namedRequest ∨ Stray placed.unit namedRequest) :=
  ban_exact_iff (single bannedOrder) bannedOrder_filed [(0, {})] bannedOrder_sound namedRequest

/-- A place of another exchange with that name removes the order. -/
theorem namedPlace_removed : ¬ Exact (single bannedOrder) [(0, {})] namedRequest := by
  intro exact'
  have banned : Banned bannedOrder namedRequest := by
    refine (exact' ⟨0, bannedOrder⟩ List.mem_cons_self List.mem_cons_self).mp ?_
    rw [removed_iff bannedOrder_sound List.mem_cons_self List.mem_cons_self rfl]
    exact ⟨.place, mem_asksOf.mpr trivial, .content (ascii "6_77"),
      mem_keysOf.mpr (by decide), by decide⟩
  rcases banned with listed | ⟨text, asked, listed⟩ | ⟨m, ⟨create, held, _⟩, _⟩ |
    ⟨m, ⟨create, held, _⟩, _⟩
  · exact absurd listed List.not_mem_nil
  · obtain rfl : text = ascii "6_77" := List.mem_singleton.mp asked
    exact absurd listed (by decide)
  · exact bannedOrder_creatives create held
  · exact bannedOrder_creatives create held

end BanRules
