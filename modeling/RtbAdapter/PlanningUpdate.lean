import RtbAdapter.PlanningData

/-!
# What one order update does

A call either leaves the visible orders alone, or it has read every accepted
order with its ban content, makes them visible and remembers the timestamp. The
outcome of the write to `exec:today` comes too late to undo this, so the update
is atomic exactly when that write cannot fail.
-/

namespace PlanningUpdate

open ByteWords JsonValues PingPong PlanningUnit PlanningData Std
open NetProtocol (adSuccess adFailure)

section Texts

variable (parse : Bytes → Option JsonValue) (calendar : Calendar)

def Accepted (text : Bytes) : Prop := dataJsonCheck parse calendar text = some adSuccess

/-- A stored text that neither stops the update nor ends the process. -/
def Readable (text : Bytes) : Prop :=
  (∃ ret ≠ adSuccess, dataJsonCheck parse calendar text = some ret) ∨
    (Accepted parse calendar text ∧ ∃ unit, dataParse parse text = some (adSuccess, unit))

def addOrder (table : TreeMap UInt32 AdPlanningUnit) (text : Bytes) :
    TreeMap UInt32 AdPlanningUnit :=
  if dataJsonCheck parse calendar text = some adSuccess then
    match dataParse parse text with
    | some (ret, unit) => if ret = adSuccess then table.insert unit.order.executeId unit else table
    | none => table
  else table

/-- The accepted orders among some texts: of two with one execution id, the later one. -/
def acceptedOrders (texts : List Bytes) : TreeMap UInt32 AdPlanningUnit :=
  texts.foldl (addOrder parse calendar) ∅

end Texts

/-- A map holds the orders of a table, wherever they are on the heap. -/
def Shows (map : OrderMap) (table : TreeMap UInt32 AdPlanningUnit) : Prop :=
  ∀ id : UInt32, (map[id]?).map Allocated.unit = table[id]?

variable {parse : Bytes → Option JsonValue} {calendar : Calendar} {redis : Redis}

@[simp] theorem failure_ne_success : ¬ adFailure = adSuccess := by decide

theorem shows_empty : Shows ∅ ∅ := fun id => by simp

theorem shows_insert {map : OrderMap} {table : TreeMap UInt32 AdPlanningUnit}
    (shown : Shows map table) (id : UInt32) (placed : Allocated) :
    Shows (map.insert id placed) (table.insert id placed.unit) := by
  intro other
  have same := shown other
  simp only [TreeMap.getElem?_insert]
  split
  · rfl
  · exact same

theorem dataPush_ok_iff {text : Bytes} (loading : Loading) :
    (∃ after, dataPush parse calendar text loading = some (adSuccess, after)) ↔
      Readable parse calendar text := by
  rw [dataPush, Readable, Accepted]
  cases check : dataJsonCheck parse calendar text with
  | none => simp
  | some ret =>
    by_cases accepted : ret = adSuccess
    · subst accepted
      cases parsed : dataParse parse text with
      | none => simp
      | some result =>
        obtain ⟨outcome, unit⟩ := result
        by_cases complete : outcome = adSuccess
        · simp [complete]
        · simp [complete]
    · simp [accepted]

theorem dataPush_shows {text : Bytes} {loading after : Loading}
    {table : TreeMap UInt32 AdPlanningUnit} (shown : Shows loading.map table)
    (pushed : dataPush parse calendar text loading = some (adSuccess, after)) :
    Shows after.map (addOrder parse calendar table text) := by
  rw [dataPush] at pushed
  rw [addOrder]
  cases check : dataJsonCheck parse calendar text with
  | none => simp [check] at pushed
  | some ret =>
    by_cases accepted : ret = adSuccess
    · subst accepted
      cases parsed : dataParse parse text with
      | none => simp [check, parsed] at pushed
      | some result =>
        obtain ⟨outcome, unit⟩ := result
        by_cases complete : outcome = adSuccess
        · simp only [check, parsed, complete] at pushed ⊢
          obtain rfl : _ = after := by simpa using pushed
          exact shows_insert shown unit.order.executeId ⟨loading.nextAddress, unit⟩
        · simp [check, parsed, complete] at pushed
    · obtain rfl : loading = after := by simpa [check, accepted] using pushed
      simpa [accepted] using shown

theorem loadOrders_ok_iff {keys : List (Bytes × Nat)} (loading : Loading) :
    (∃ after, loadOrders parse calendar redis keys loading = some (adSuccess, after)) ↔
      ∀ key ∈ keys, redis.ok (.raw key.2) ∧ Readable parse calendar (redis.raw key.1) := by
  induction keys generalizing loading with
  | nil => simp [loadOrders]
  | cons key keys ih =>
    rw [loadOrders, List.forall_mem_cons]
    by_cases ok : redis.ok (.raw key.2)
    · rw [if_pos ok]
      cases pushed : dataPush parse calendar (redis.raw key.1) loading with
      | none =>
        have stopped : ¬ Readable parse calendar (redis.raw key.1) := fun readable => by
          obtain ⟨after, h⟩ := (dataPush_ok_iff loading).mpr readable
          rw [pushed] at h
          cases h
        simp [stopped]
      | some result =>
        obtain ⟨ret, after⟩ := result
        by_cases success : ret = adSuccess
        · subst success
          have readable : Readable parse calendar (redis.raw key.1) :=
            (dataPush_ok_iff loading).mp ⟨after, pushed⟩
          simp only [ok, readable, and_self, true_and]
          exact ih after
        · have stopped : ¬ Readable parse calendar (redis.raw key.1) := fun readable => by
            obtain ⟨after', h⟩ := (dataPush_ok_iff loading).mpr readable
            rw [pushed] at h
            cases h
            exact success rfl
          simp [success, stopped]
    · simp [ok]

theorem loadOrders_shows {keys : List (Bytes × Nat)} {loading after : Loading}
    {table : TreeMap UInt32 AdPlanningUnit} (shown : Shows loading.map table)
    (loaded : loadOrders parse calendar redis keys loading = some (adSuccess, after)) :
    Shows after.map ((keys.map fun key => redis.raw key.1).foldl (addOrder parse calendar) table)
      := by
  induction keys generalizing loading table with
  | nil =>
    obtain rfl : loading = after := by simpa [loadOrders] using loaded
    exact shown
  | cons key keys ih =>
    rw [loadOrders] at loaded
    split at loaded
    · cases pushed : dataPush parse calendar (redis.raw key.1) loading with
      | none => simp [pushed] at loaded
      | some result =>
        obtain ⟨ret, middle⟩ := result
        by_cases success : ret = adSuccess
        · subst success
          exact ih (dataPush_shows shown pushed) (by simpa [pushed] using loaded)
        · simp [pushed, success] at loaded
    · simp at loaded

theorem optional_cases {α : Type} {value : JsonValue} {key : String} {absent x : α}
    {read : JsonValue → Option α} (h : value.optional key absent read = some x) :
    x = absent ∨ ∃ member, read member = some x := by
  obtain ⟨isMember, _, h⟩ := Option.bind_eq_some_iff.mp h
  cases isMember with
  | false => exact .inl (Option.some.inj h).symm
  | true =>
    obtain ⟨member, _, h⟩ := Option.bind_eq_some_iff.mp h
    exact .inr ⟨member, h⟩

theorem dataParseOrder_banContent {value : JsonValue} {order : AdOrderInfo}
    (parsed : dataParseOrder value = some order) : order.banContent = [] := by
  rw [dataParseOrder] at parsed
  iterate 18 obtain ⟨_, _, parsed⟩ := Option.bind_eq_some_iff.mp parsed
  cases parsed
  rfl

/-- A parsed order has no ban content of its own. -/
theorem dataParse_banContent {text : Bytes} {ret : Int} {unit : AdPlanningUnit}
    (parsed : dataParse parse text = some (ret, unit)) : unit.order.banContent = [] := by
  rw [dataParse] at parsed
  split at parsed
  · cases parsed
    rfl
  · obtain ⟨order, hOrder, parsed⟩ := Option.bind_eq_some_iff.mp parsed
    iterate 11 obtain ⟨_, _, parsed⟩ := Option.bind_eq_some_iff.mp parsed
    cases parsed
    change order.banContent = []
    rcases optional_cases hOrder with rfl | ⟨value, hOrder⟩
    · rfl
    · exact dataParseOrder_banContent hOrder

/-- A parsed order has no price yet. -/
theorem dataParse_advancedPrice {text : Bytes} {ret : Int} {unit : AdPlanningUnit}
    (parsed : dataParse parse text = some (ret, unit)) : unit.advancedPrice = none := by
  rw [dataParse] at parsed
  split at parsed
  · cases parsed
    rfl
  · iterate 12 obtain ⟨_, _, parsed⟩ := Option.bind_eq_some_iff.mp parsed
    cases parsed
    rfl

theorem addOrder_all {P : AdPlanningUnit → Prop}
    (parsed : ∀ text ret unit, dataParse parse text = some (ret, unit) → P unit)
    {table : TreeMap UInt32 AdPlanningUnit} {text : Bytes}
    (all : ∀ (id : UInt32) unit, table[id]? = some unit → P unit)
    (id : UInt32) (unit : AdPlanningUnit)
    (found : (addOrder parse calendar table text)[id]? = some unit) : P unit := by
  rw [addOrder] at found
  split at found
  · split at found
    case h_1 ret added read =>
      split at found
      · rw [TreeMap.getElem?_insert] at found
        split at found
        · cases found
          exact parsed _ _ _ read
        · exact all id unit found
      · exact all id unit found
    · exact all id unit found
  · exact all id unit found

/-- What holds of every parsed order holds of the accepted ones. -/
theorem acceptedOrders_all {P : AdPlanningUnit → Prop}
    (parsed : ∀ text ret unit, dataParse parse text = some (ret, unit) → P unit)
    (texts : List Bytes) : ∀ (id : UInt32) unit,
      (acceptedOrders parse calendar texts)[id]? = some unit → P unit := by
  have fold : ∀ (texts : List Bytes) (table : TreeMap UInt32 AdPlanningUnit),
      (∀ (id : UInt32) unit, table[id]? = some unit → P unit) → ∀ (id : UInt32) unit,
        (texts.foldl (addOrder parse calendar) table)[id]? = some unit → P unit := by
    intro texts
    induction texts with
    | nil => exact fun _ all => all
    | cons text texts ih => exact fun table all => ih _ (addOrder_all parsed all)
  exact fold texts ∅ fun id unit found => by simp at found

section Bans

variable (parse) (redis)

/-- The places of a banned advertiser, empty where the answer is not readable. -/
def placesOf (banId : UInt32) : List Bytes :=
  ((banPlaces parse (redis.ban (banKey banId))).join).getD []

/-- Every ban content that an order asks for is answered with a readable text. -/
def BanAnswered (execId : UInt32) (ids : List (UInt32 × Nat)) : Prop :=
  ∀ id ∈ ids, redis.ok (.ban execId id.2) ∧
    ∃ places, banPlaces parse (redis.ban (banKey id.1)) = some (some places)

/-- An order with the complete ban content of its ban ids. -/
def withContent (unit : AdPlanningUnit) : AdPlanningUnit :=
  { unit with order := { unit.order with
      banContent := unit.order.banId.flatMap (placesOf parse redis) } }

end Bans

theorem loadBan_ok_iff {execId : UInt32} {ids : List (UInt32 × Nat)} (content : List Bytes) :
    (∃ after, loadBan parse redis execId ids content = some (adSuccess, after)) ↔
      BanAnswered parse redis execId ids := by
  induction ids generalizing content with
  | nil => simp [loadBan, BanAnswered]
  | cons id ids ih =>
    rw [loadBan, BanAnswered, List.forall_mem_cons]
    by_cases ok : redis.ok (.ban execId id.2)
    · rw [if_pos ok]
      cases answer : banPlaces parse (redis.ban (banKey id.1)) with
      | none => simp
      | some readable =>
        cases readable with
        | none => simp
        | some places =>
          simp only [ok, Option.some.injEq, exists_eq', and_self, true_and]
          exact ih (content ++ places)
    · simp [ok]

theorem loadBan_content {execId : UInt32} {ids : List (UInt32 × Nat)} {content after : List Bytes}
    (loaded : loadBan parse redis execId ids content = some (adSuccess, after)) :
    after = content ++ ids.flatMap fun id => placesOf parse redis id.1 := by
  induction ids generalizing content with
  | nil =>
    obtain rfl : content = after := by simpa [loadBan] using loaded
    simp
  | cons id ids ih =>
    rw [loadBan] at loaded
    split at loaded
    · cases answer : banPlaces parse (redis.ban (banKey id.1)) with
      | none => simp [answer] at loaded
      | some readable =>
        cases readable with
        | none => simp [answer] at loaded
        | some places =>
          have rest : loadBan parse redis execId ids (content ++ places) =
              some (adSuccess, after) := by simpa [answer] using loaded
          have rest := ih rest
          simp [rest, placesOf, answer]
    · simp at loaded

theorem dataUpdateBanList_ok_iff (entries : List (UInt32 × Allocated)) (map : OrderMap) :
    (∃ after, dataUpdateBanList parse redis entries map = some (adSuccess, after)) ↔
      ∀ e ∈ entries, BanAnswered parse redis e.1 e.2.unit.order.banId.zipIdx := by
  induction entries generalizing map with
  | nil => simp [dataUpdateBanList]
  | cons entry entries ih =>
    rw [dataUpdateBanList, List.forall_mem_cons]
    rw [← loadBan_ok_iff entry.2.unit.order.banContent]
    cases loaded : loadBan parse redis entry.1 entry.2.unit.order.banId.zipIdx
        entry.2.unit.order.banContent with
    | none => simp
    | some result =>
      obtain ⟨ret, content⟩ := result
      by_cases success : ret = adSuccess
      · subst success
        simp only [Option.some.injEq, Prod.mk.injEq, true_and, exists_eq']
        exact ih _
      · simp [success]

theorem dataUpdateBanList_get {entries : List (UInt32 × Allocated)} {map after : OrderMap}
    (distinct : entries.Pairwise fun a b => a.1 ≠ b.1)
    (loaded : dataUpdateBanList parse redis entries map = some (adSuccess, after)) :
    (∀ e ∈ entries, after[e.1]? = some (Allocated.withBan e.2 (e.2.unit.order.banContent ++
        e.2.unit.order.banId.flatMap (placesOf parse redis)))) ∧
      ∀ id, (∀ e ∈ entries, e.1 ≠ id) → after[id]? = map[id]? := by
  induction entries generalizing map with
  | nil =>
    obtain rfl : map = after := by simpa [dataUpdateBanList] using loaded
    exact ⟨fun e inside => absurd inside List.not_mem_nil, fun _ _ => rfl⟩
  | cons entry entries ih =>
    obtain ⟨apart, distinct⟩ := List.pairwise_cons.mp distinct
    rw [dataUpdateBanList] at loaded
    cases content : loadBan parse redis entry.1 entry.2.unit.order.banId.zipIdx
        entry.2.unit.order.banContent with
    | none => simp [content] at loaded
    | some result =>
      obtain ⟨ret, read⟩ := result
      by_cases success : ret = adSuccess
      · subst success
        obtain ⟨inside, outside⟩ := ih distinct (by simpa [content] using loaded)
        have places : read = entry.2.unit.order.banContent ++
            entry.2.unit.order.banId.flatMap (placesOf parse redis) := by
          rw [loadBan_content content, ← List.flatMap_map, List.zipIdx_map_fst]
        constructor
        · intro e member
          rcases List.mem_cons.mp member with rfl | member
          · rw [outside e.1 fun other there => (apart other there).symm, places]
            simp
          · exact inside e member
        · intro id away
          obtain ⟨first, away⟩ := List.forall_mem_cons.mp away
          rw [outside id away, TreeMap.getElem?_insert, if_neg (by simpa using first)]
      · simp [content, success] at loaded

section Stages

variable (parse) (calendar) (redis)

def stored : List Bytes := redis.rawKeys.map redis.raw

/-- The orders that redis holds and `DataJsonCheck` accepts. -/
def storedOrders : TreeMap UInt32 AdPlanningUnit := acceptedOrders parse calendar (stored redis)

/-- The call empties the back map: redis answers, with a timestamp that is new. -/
structure Clears (s : AdPlanningData) : Prop where
  connect : redis.ok .dataConnect
  timestamp : redis.ok .timestamp
  changed : redis.timestamp ≠ s.lastTimeStamp
  keys : redis.ok .rawKeys

/-- Every order and every ban content is answered, and with a readable text. -/
structure OrdersRead : Prop where
  orders : ∀ key ∈ redis.rawKeys.zipIdx,
    redis.ok (.raw key.2) ∧ Readable parse calendar (redis.raw key.1)
  bans : ∀ (id : UInt32) unit, (storedOrders parse calendar redis)[id]? = some unit →
    BanAnswered parse redis id unit.order.banId.zipIdx

/-- There is an order for today, and every write to `exec:today` succeeds. -/
structure SystemWrites : Prop where
  present : (storedOrders parse calendar redis).isEmpty = false
  connect : redis.ok .systemConnect
  sadd : ∀ id ∈ storedOrders parse calendar redis, redis.ok (.sadd id)

/-- One unit for each execution id of the accepted orders, with its complete ban content. -/
structure HoldsOrders (map : OrderMap) : Prop where
  parsed : ∀ text ∈ stored redis, Accepted parse calendar text →
    ∃ unit, dataParse parse text = some (adSuccess, unit) ∧ unit.order.executeId ∈ map
  shown : Shows map ((storedOrders parse calendar redis).map fun _ => withContent parse redis)

end Stages

theorem mem_of_shows {map : OrderMap} {table : TreeMap UInt32 AdPlanningUnit}
    (shown : Shows map table) {id : UInt32} : id ∈ map ↔ id ∈ table := by
  rw [TreeMap.mem_iff_isSome_getElem?, TreeMap.mem_iff_isSome_getElem?, ← shown id,
    Option.isSome_map]

theorem mem_addOrder {table : TreeMap UInt32 AdPlanningUnit} {id : UInt32} (text : Bytes)
    (present : id ∈ table) : id ∈ addOrder parse calendar table text := by
  rw [addOrder]
  split
  · split
    · split
      · exact TreeMap.mem_insert.mpr (.inr present)
      · exact present
    · exact present
  · exact present

theorem mem_foldl_addOrder {table : TreeMap UInt32 AdPlanningUnit} {id : UInt32}
    (texts : List Bytes) (present : id ∈ table) :
    id ∈ texts.foldl (addOrder parse calendar) table := by
  induction texts generalizing table with
  | nil => exact present
  | cons text texts ih => exact ih (mem_addOrder text present)

/-- An accepted order that parses is in the table, under its own execution id. -/
theorem mem_acceptedOrders {texts : List Bytes} {text : Bytes} {unit : AdPlanningUnit}
    (inside : text ∈ texts) (accepted : Accepted parse calendar text)
    (parsed : dataParse parse text = some (adSuccess, unit)) :
    unit.order.executeId ∈ acceptedOrders parse calendar texts := by
  obtain ⟨front, back, rfl⟩ := List.append_of_mem inside
  rw [acceptedOrders, List.foldl_append, List.foldl_cons]
  apply mem_foldl_addOrder
  rw [addOrder, if_pos (show dataJsonCheck parse calendar text = some adSuccess from accepted),
    parsed]
  exact TreeMap.mem_insert_self

theorem entries_distinct (map : OrderMap) : map.toList.Pairwise fun a b => a.1 ≠ b.1 := by
  refine map.distinct_keys_toList.imp fun {a b} apart same => apart ?_
  rw [same]
  exact compare_eq_iff_eq.mpr rfl

/-- The orders that were loaded, with nothing read of their ban content yet. -/
theorem loaded_shows {loading : Loading} {nextAddress : Nat}
    (loaded : loadOrders parse calendar redis redis.rawKeys.zipIdx ⟨∅, nextAddress⟩ =
      some (adSuccess, loading)) : Shows loading.map (storedOrders parse calendar redis) := by
  have shown := loadOrders_shows shows_empty loaded
  have texts : (redis.rawKeys.zipIdx.map fun key => redis.raw key.1) = stored redis := by
    rw [stored]
    conv_rhs => rw [← List.zipIdx_map_fst 0 redis.rawKeys, List.map_map]
    rfl
  rwa [texts] at shown

theorem banAnswered_iff {map : OrderMap} (shown : Shows map (storedOrders parse calendar redis)) :
    (∀ e ∈ map.toList, BanAnswered parse redis e.1 e.2.unit.order.banId.zipIdx) ↔
      ∀ (id : UInt32) unit, (storedOrders parse calendar redis)[id]? = some unit →
        BanAnswered parse redis id unit.order.banId.zipIdx := by
  constructor
  · intro answered id unit found
    rw [← shown id] at found
    obtain ⟨placed, there, rfl⟩ := Option.map_eq_some_iff.mp found
    exact answered (id, placed) (TreeMap.mem_toList_iff_getElem?_eq_some.mpr there)
  · rintro answered ⟨id, placed⟩ inside
    have there := TreeMap.mem_toList_iff_getElem?_eq_some.mp inside
    exact answered id placed.unit (by rw [← shown id, there]; rfl)

/-- Reading succeeds by its two stages. -/
theorem readOrders_success {nextAddress : Nat} {after : Loading} :
    readOrders parse calendar redis nextAddress = some (adSuccess, after) ↔
      ∃ loading,
        loadOrders parse calendar redis redis.rawKeys.zipIdx ⟨∅, nextAddress⟩ =
            some (adSuccess, loading) ∧
          dataUpdateBanList parse redis loading.map.toList loading.map =
            some (adSuccess, after.map) ∧ after.nextAddress = loading.nextAddress := by
  rw [readOrders]
  cases loaded : loadOrders parse calendar redis redis.rawKeys.zipIdx ⟨∅, nextAddress⟩ with
  | none => simp
  | some result =>
    obtain ⟨ret, loading⟩ := result
    by_cases success : ret = adSuccess
    · subst success
      cases content : dataUpdateBanList parse redis loading.map.toList loading.map with
      | none => simp [content]
      | some result =>
        obtain ⟨ret, map⟩ := result
        constructor
        · intro same
          obtain ⟨rfl, rfl⟩ : ret = adSuccess ∧ { loading with map } = after := by
            simpa [content] using same
          exact ⟨loading, rfl, content, rfl⟩
        · rintro ⟨other, same, read, address⟩
          obtain rfl : loading = other := by simpa using same
          rw [content] at read
          obtain ⟨rfl, rfl⟩ : ret = adSuccess ∧ map = after.map := by simpa using read
          simp [content, ← address]
    · simp [success]

theorem readOrders_ok_iff (nextAddress : Nat) :
    (∃ after, readOrders parse calendar redis nextAddress = some (adSuccess, after)) ↔
      OrdersRead parse calendar redis := by
  constructor
  · rintro ⟨after, read⟩
    obtain ⟨loading, loaded, content, _⟩ := readOrders_success.mp read
    constructor
    · exact (loadOrders_ok_iff ⟨∅, nextAddress⟩).mp ⟨loading, loaded⟩
    · rw [← banAnswered_iff (loaded_shows loaded)]
      exact (dataUpdateBanList_ok_iff loading.map.toList loading.map).mp ⟨after.map, content⟩
  · rintro ⟨orders, bans⟩
    obtain ⟨loading, loaded⟩ := (loadOrders_ok_iff ⟨∅, nextAddress⟩).mpr orders
    rw [← banAnswered_iff (loaded_shows loaded)] at bans
    obtain ⟨map, content⟩ := (dataUpdateBanList_ok_iff loading.map.toList loading.map).mpr bans
    exact ⟨⟨map, loading.nextAddress⟩, readOrders_success.mpr ⟨loading, loaded, content, rfl⟩⟩

/-- What was read to its end holds the stored orders. -/
theorem readOrders_holds {nextAddress : Nat} {after : Loading}
    (read : readOrders parse calendar redis nextAddress = some (adSuccess, after)) :
    HoldsOrders parse calendar redis after.map := by
  obtain ⟨loading, loaded, content, _⟩ := readOrders_success.mp read
  have shown := loaded_shows loaded
  obtain ⟨inside, outside⟩ := dataUpdateBanList_get (entries_distinct loading.map) content
  have holds : Shows after.map
      ((storedOrders parse calendar redis).map fun _ => withContent parse redis) := by
    intro id
    rw [TreeMap.getElem?_map, ← shown id]
    cases found : loading.map[id]? with
    | none =>
      have away : ∀ e ∈ loading.map.toList, e.1 ≠ id := by
        rintro ⟨other, placed⟩ there rfl
        rw [TreeMap.mem_toList_iff_getElem?_eq_some, found] at there
        cases there
      rw [outside id away, found]
      rfl
    | some placed =>
      have there := TreeMap.mem_toList_iff_getElem?_eq_some.mpr found
      have blank : placed.unit.order.banContent = [] :=
        acceptedOrders_all (fun _ _ _ => dataParse_banContent) (stored redis) id placed.unit (by
          rw [← storedOrders, ← shown id, found]
          rfl)
      rw [inside _ there]
      simp only [blank, List.nil_append, Option.map_some]
      rfl
  refine ⟨fun text there accepted => ?_, holds⟩
  have readable := (loadOrders_ok_iff ⟨∅, nextAddress⟩).mp ⟨loading, loaded⟩
  obtain ⟨key, listed, rfl⟩ := List.mem_map.mp there
  obtain ⟨index, key_there⟩ : ∃ index, (key, index) ∈ redis.rawKeys.zipIdx := by
    rw [← List.zipIdx_map_fst 0 redis.rawKeys] at listed
    obtain ⟨⟨key', index⟩, indexed, rfl⟩ := List.mem_map.mp listed
    exact ⟨index, indexed⟩
  rcases (readable _ key_there).2 with ⟨ret, other, check⟩ | ⟨_, unit, parsed⟩
  · rw [Accepted, check] at accepted
    exact absurd (Option.some.inj accepted) other
  · refine ⟨unit, parsed, (mem_of_shows holds).mpr ?_⟩
    rw [TreeMap.mem_map]
    exact mem_acceptedOrders there accepted parsed

theorem dataUpdateForSystem_iff {map : OrderMap} (holds : HoldsOrders parse calendar redis map) :
    dataUpdateForSystem redis map = adSuccess ↔ SystemWrites parse calendar redis := by
  have same : ∀ id, id ∈ map ↔ id ∈ storedOrders parse calendar redis := fun id => by
    rw [mem_of_shows holds.shown, TreeMap.mem_map]
  have empty : map.isEmpty = (storedOrders parse calendar redis).isEmpty := by
    rw [Bool.eq_iff_iff, TreeMap.isEmpty_iff_forall_not_mem, TreeMap.isEmpty_iff_forall_not_mem]
    simp only [same]
  have saved : (map.toList.all fun entry => redis.ok (.sadd entry.1)) ↔
      ∀ id ∈ storedOrders parse calendar redis, redis.ok (.sadd id) := by
    rw [List.all_eq_true]
    constructor
    · intro all id there
      obtain ⟨placed, found⟩ := TreeMap.mem_iff_isSome_getElem?.trans Option.isSome_iff_exists
        |>.mp ((same id).mpr there)
      exact all (id, placed) (TreeMap.mem_toList_iff_getElem?_eq_some.mpr found)
    · rintro all ⟨id, placed⟩ there
      have found := TreeMap.mem_toList_iff_getElem?_eq_some.mp there
      exact all id ((same id).mp (TreeMap.mem_iff_isSome_getElem?.mpr (by simp [found])))
  rw [dataUpdateForSystem, empty]
  constructor
  · intro success
    split at success
    · exact absurd success failure_ne_success
    · split at success
      case isTrue present written =>
        exact ⟨by simpa using present, written.1, saved.mp written.2⟩
      · exact absurd success failure_ne_success
  · rintro ⟨present, connect, sadd⟩
    rw [if_neg (by simp [present]), if_pos ⟨connect, saved.mpr sadd⟩]

/-- The state a completed reading leaves: the read map visible, the old one behind it. -/
def switched (redis : Redis) (s : AdPlanningData) (loading : Loading) : AdPlanningData :=
  { s with data := (s.data.setBack loading.map).switch, lastTimeStamp := redis.timestamp,
           nextAddress := loading.nextAddress }

/-- The state an incomplete reading leaves. -/
def broken (s : AdPlanningData) (loading : Loading) : AdPlanningData :=
  { s with data := s.data.setBack loading.map, nextAddress := loading.nextAddress }

variable {s : AdPlanningData}

theorem dataUpdate_clears (clears : Clears redis s) :
    s.dataUpdate parse calendar redis =
      (readOrders parse calendar redis s.nextAddress).map fun read =>
        if read.1 = adSuccess then
          ⟨dataUpdateForSystem redis read.2.map, read.2.map.size, switched redis s read.2⟩
        else ⟨read.1, 0, broken s read.2⟩ := by
  rw [AdPlanningData.dataUpdate]
  simp only [clears.connect, clears.timestamp, clears.keys, if_neg clears.changed]
  cases readOrders parse calendar redis s.nextAddress with
  | none => rfl
  | some read =>
    obtain ⟨ret, loading⟩ := read
    by_cases success : ret = adSuccess
    · simp [success, switched]
    · simp [success, broken]

/-- A call that does not empty the back map leaves everything as it was. -/
theorem dataUpdate_keeps {u : Updated} (clears : ¬ Clears redis s)
    (called : s.dataUpdate parse calendar redis = some u) :
    u.state = s ∧ u.size = 0 ∧ (u.ret = adSuccess → redis.timestamp = s.lastTimeStamp) := by
  rw [AdPlanningData.dataUpdate] at called
  split at called
  · cases called
    exact ⟨rfl, rfl, fun success => absurd success failure_ne_success⟩
  split at called
  · cases called
    exact ⟨rfl, rfl, fun success => absurd success failure_ne_success⟩
  split at called
  · cases called
    exact ⟨rfl, rfl, fun _ => by assumption⟩
  split at called
  · cases called
    exact ⟨rfl, rfl, fun success => absurd success failure_ne_success⟩
  · exact absurd ⟨by simp_all, by simp_all, by assumption, by simp_all⟩ clears

/-- With every order and ban content read, the call switches. -/
theorem dataUpdate_reads (clears : Clears redis s) (read : OrdersRead parse calendar redis) :
    ∃ loading, HoldsOrders parse calendar redis loading.map ∧
      s.dataUpdate parse calendar redis = some ⟨dataUpdateForSystem redis loading.map,
        loading.map.size, switched redis s loading⟩ := by
  obtain ⟨loading, done⟩ := (readOrders_ok_iff s.nextAddress).mpr read
  refine ⟨loading, readOrders_holds done, ?_⟩
  rw [dataUpdate_clears clears, done]
  simp

/-- Without that, the visible half stays, and the call does not succeed. -/
theorem dataUpdate_breaks {u : Updated} (clears : Clears redis s)
    (read : ¬ OrdersRead parse calendar redis)
    (called : s.dataUpdate parse calendar redis = some u) :
    ∃ loading, u.state = broken s loading ∧ u.size = 0 ∧ u.ret ≠ adSuccess := by
  rw [dataUpdate_clears clears] at called
  obtain ⟨⟨ret, loading⟩, done, rfl⟩ := Option.map_eq_some_iff.mp called
  have failed : ret ≠ adSuccess := fun success => by
    subst success
    exact read ((readOrders_ok_iff s.nextAddress).mp ⟨loading, done⟩)
  exact ⟨loading, by simp [failed], by simp [failed], by simp [failed]⟩

/-- A call that fails changes neither the visible orders nor the timestamp, and one that
succeeds on a new timestamp shows the stored orders. -/
def Atomic (parse : Bytes → Option JsonValue) (calendar : Calendar) (redis : Redis)
    (s : AdPlanningData) : Prop :=
  ∀ u, s.dataUpdate parse calendar redis = some u →
    (u.ret ≠ adSuccess →
      u.state.data.get = s.data.get ∧ u.state.lastTimeStamp = s.lastTimeStamp) ∧
    (u.ret = adSuccess → redis.timestamp ≠ s.lastTimeStamp →
      HoldsOrders parse calendar redis u.state.data.get)

/-- An update is atomic exactly when it does not come to the write to `exec:today`, or that
write is not empty and succeeds. -/
theorem atomic_iff (parse : Bytes → Option JsonValue) (calendar : Calendar) (redis : Redis)
    (s : AdPlanningData) :
    Atomic parse calendar redis s ↔
      (Clears redis s → OrdersRead parse calendar redis → SystemWrites parse calendar redis) := by
  constructor
  · intro atomic clears read
    obtain ⟨loading, holds, called⟩ := dataUpdate_reads clears read
    rw [← dataUpdateForSystem_iff holds]
    by_contra failed
    exact clears.changed ((atomic _ called).1 failed).2
  · intro writes u called
    by_cases clears : Clears redis s
    · by_cases read : OrdersRead parse calendar redis
      · obtain ⟨loading, holds, done⟩ := dataUpdate_reads clears read
        obtain rfl : _ = u := Option.some.inj (done.symm.trans called)
        refine ⟨fun failed => ?_, fun _ _ => ?_⟩
        · exact absurd ((dataUpdateForSystem_iff holds).mpr (writes clears read)) failed
        · simpa [switched] using holds
      · obtain ⟨loading, state, _, failed⟩ := dataUpdate_breaks clears read called
        refine ⟨fun _ => ?_, fun success => absurd success failed⟩
        simp [state, broken]
    · obtain ⟨state, _, unchanged⟩ := dataUpdate_keeps clears called
      refine ⟨fun _ => by rw [state]; exact ⟨rfl, rfl⟩, fun success changed => ?_⟩
      exact absurd (unchanged success) changed

/-- An order for every area, with one creative of 300 by 250 on exchange 1. -/
def sampleOrder : JsonValue :=
  let field (key : String) (value : JsonValue) : Bytes × JsonValue := (ascii key, value)
  let text (s : String) : JsonValue := .string (ascii s)
  .object [
    field "order" (.object [field "execid" (.int 7)]),
    field "pid" (.array [.object [field "adx_id" (text "1"), field "select_type" (.int 1)]]),
    field "range" (.object [field "start" (text "2015-01-01"), field "end" (text ""),
      field "week" (.array [.object [field "weekday" (.int 1), field "hour" (.array [.int 10])]])]),
    field "area" (.array [text "0086-ffff-ffff"]),
    field "create" (.array [.object [field "adx_id" (text "1"), field "gid" (text "g"),
      field "material" (.array [.object [field "width" (.int 300), field "height" (.int 250)]])]])]

def sampleParse (_ : Bytes) : Option JsonValue := some sampleOrder

def sampleCalendar : Calendar := ⟨1, fun _ => 0⟩

/-- Redis with some orders, all of them the sample order, and no other content. -/
def sampleRedis (timestamp : Int) (rawKeys : List Bytes) (fails : List RedisCall) : Redis where
  ok call := decide (call ∉ fails)
  timestamp := timestamp
  rawKeys := rawKeys
  raw _ := ascii "{}"
  ban _ := []
  seniorKeys := []
  senior _ := []
  pidKeys _ := []

/-- The first order arrives, and the connection for `exec:today` fails. -/
theorem failed_write_switches :
    ¬ Atomic sampleParse sampleCalendar (sampleRedis 1 [ascii "7"] [.systemConnect])
      AdPlanningData.fresh := by
  have outcome : (AdPlanningData.fresh.dataUpdate sampleParse sampleCalendar
      (sampleRedis 1 [ascii "7"] [.systemConnect])).map
        (fun u => (u.ret, u.state.lastTimeStamp)) = some (adFailure, 1) := by decide +kernel
  obtain ⟨u, called, same⟩ := Option.map_eq_some_iff.mp outcome
  obtain ⟨ret, timestamp⟩ := Prod.mk.inj same
  intro atomic
  have kept := ((atomic u called).1 (ret ▸ failure_ne_success)).2
  rw [timestamp] at kept
  exact absurd kept (by decide)

end PlanningUpdate
