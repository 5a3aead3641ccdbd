import RtbAdapter.PlanningUpdate
import RtbAdapter.RtbEngine

/-!
# Where orders stand

The calls of the order data and the addresses of the orders in its two maps: new
orders stand at new addresses, and the stages that change an order leave it where
it is.
-/

namespace OrderPlaces

open ByteWords JsonValues PingPong PlanningUnit PlanningData PlanningUpdate RtbEngine Std
open NetProtocol (adSuccess adFailure)

variable {parse : Bytes → Option JsonValue} {calendar : Calendar} {redis : Redis}

theorem mem_addresses {map : OrderMap} {a : Nat} :
    a ∈ addresses map ↔ ∃ id : UInt32, (map[id]?).map Allocated.address = some a := by
  rw [addresses, List.mem_map]
  constructor
  · rintro ⟨⟨id, placed⟩, inside, rfl⟩
    exact ⟨id, by rw [TreeMap.mem_toList_iff_getElem?_eq_some.mp inside]; rfl⟩
  · rintro ⟨id, there⟩
    obtain ⟨placed, found, rfl⟩ := Option.map_eq_some_iff.mp there
    exact ⟨(id, placed), TreeMap.mem_toList_iff_getElem?_eq_some.mpr found, rfl⟩

theorem mem_addresses_of_get {map : OrderMap} {id : UInt32} {placed : Allocated}
    (found : map[id]? = some placed) : placed.address ∈ addresses map :=
  mem_addresses.mpr ⟨id, by rw [found]; rfl⟩

@[simp] theorem addresses_empty : addresses ∅ = [] := rfl

theorem mem_addresses_insert {map : OrderMap} {id : UInt32} {placed : Allocated} {a : Nat}
    (inside : a ∈ addresses (map.insert id placed)) : a = placed.address ∨ a ∈ addresses map := by
  obtain ⟨other, there⟩ := mem_addresses.mp inside
  rw [TreeMap.getElem?_insert] at there
  split at there
  · exact .inl (Option.some.inj there).symm
  · exact .inr (mem_addresses.mpr ⟨other, there⟩)

/-- The same orders stand at the same addresses. -/
def SamePlaces (map after : OrderMap) : Prop :=
  ∀ id : UInt32, (after[id]?).map Allocated.address = (map[id]?).map Allocated.address

theorem SamePlaces.refl (map : OrderMap) : SamePlaces map map := fun _ => rfl

theorem SamePlaces.trans {map middle after : OrderMap} (first : SamePlaces map middle)
    (second : SamePlaces middle after) : SamePlaces map after :=
  fun id => (second id).trans (first id)

theorem SamePlaces.mem_addresses {map after : OrderMap} (same : SamePlaces map after) {a : Nat} :
    a ∈ addresses after ↔ a ∈ addresses map := by
  rw [OrderPlaces.mem_addresses, OrderPlaces.mem_addresses]
  simp only [same _]

theorem SamePlaces.mem {map after : OrderMap} (same : SamePlaces map after) {id : UInt32} :
    id ∈ after ↔ id ∈ map := by
  rw [TreeMap.mem_iff_isSome_getElem?, TreeMap.mem_iff_isSome_getElem?,
    ← Option.isSome_map (f := Allocated.address), same id, Option.isSome_map]

theorem SamePlaces.insert {map middle : OrderMap} (same : SamePlaces map middle) {id : UInt32}
    {placed : Allocated} (here : (map[id]?).map Allocated.address = some placed.address) :
    SamePlaces map (middle.insert id placed) := by
  intro other
  rw [TreeMap.getElem?_insert]
  split
  case isTrue equal =>
    obtain rfl := compare_eq_iff_eq.mp equal
    exact here.symm
  case isFalse => exact same other

theorem get_toList {map : OrderMap} :
    ∀ e ∈ map.toList, (map[e.1]?).map Allocated.address = some e.2.address := by
  rintro ⟨id, placed⟩ inside
  rw [TreeMap.mem_toList_iff_getElem?_eq_some.mp inside]
  rfl

theorem dataUpdateBanList_places {entries : List (UInt32 × Allocated)} {map middle after : OrderMap}
    {ret : Int} (listed : ∀ e ∈ entries, (map[e.1]?).map Allocated.address = some e.2.address)
    (same : SamePlaces map middle)
    (read : dataUpdateBanList parse redis entries middle = some (ret, after)) :
    SamePlaces map after := by
  induction entries generalizing middle with
  | nil =>
    cases read
    exact same
  | cons entry entries ih =>
    obtain ⟨here, listed⟩ := List.forall_mem_cons.mp listed
    rw [dataUpdateBanList] at read
    obtain ⟨⟨ret', content⟩, _, read⟩ := Option.bind_eq_some_iff.mp read
    have same' : SamePlaces map (middle.insert entry.1 (Allocated.withBan entry.2 content)) :=
      same.insert here
    dsimp only at read
    split at read
    · exact ih listed same' read
    · cases read
      exact same'

theorem loadPids_places {entries : List (UInt32 × Allocated)} {map middle : OrderMap}
    (listed : ∀ e ∈ entries, (map[e.1]?).map Allocated.address = some e.2.address)
    (same : SamePlaces map middle) : SamePlaces map (loadPids redis entries middle).2 := by
  induction entries generalizing middle with
  | nil => exact same
  | cons entry entries ih =>
    obtain ⟨here, listed⟩ := List.forall_mem_cons.mp listed
    rw [loadPids]
    split
    · exact ih listed (same.insert here)
    · exact same

theorem withPrice_places (prices : PriceMap) (map : OrderMap) :
    SamePlaces map (map.map fun _ => Allocated.withPrice prices) := by
  intro id
  rw [TreeMap.getElem?_map, Option.map_map]
  rfl

/-- The orders of a map stand at addresses from a range. -/
def PlacedIn (map : OrderMap) (low high : Nat) : Prop :=
  ∀ a ∈ addresses map, low ≤ a ∧ a < high

theorem PlacedIn.mono {map : OrderMap} {low high higher : Nat} (placed : PlacedIn map low high)
    (above : high ≤ higher) : PlacedIn map low higher :=
  fun a inside => ⟨(placed a inside).1, (placed a inside).2.trans_le above⟩

theorem dataPush_places {text : Bytes} {loading after : Loading} {ret : Int} {low : Nat}
    (placed : PlacedIn loading.map low loading.nextAddress) (above : low ≤ loading.nextAddress)
    (pushed : dataPush parse calendar text loading = some (ret, after)) :
    loading.nextAddress ≤ after.nextAddress ∧ PlacedIn after.map low after.nextAddress := by
  rw [dataPush] at pushed
  obtain ⟨check, _, pushed⟩ := Option.bind_eq_some_iff.mp pushed
  split at pushed
  · cases pushed
    exact ⟨le_rfl, placed⟩
  obtain ⟨⟨outcome, unit⟩, _, pushed⟩ := Option.bind_eq_some_iff.mp pushed
  dsimp only at pushed
  split at pushed
  · cases pushed
    refine ⟨Nat.le_succ _, fun a inside => ?_⟩
    rcases mem_addresses_insert inside with rfl | inside
    · exact ⟨above, Nat.lt_succ_self _⟩
    · exact placed.mono (Nat.le_succ _) a inside
  · cases pushed
    exact ⟨Nat.le_succ _, placed.mono (Nat.le_succ _)⟩

theorem loadOrders_places {keys : List (Bytes × Nat)} {loading after : Loading} {ret : Int}
    {low : Nat} (placed : PlacedIn loading.map low loading.nextAddress)
    (above : low ≤ loading.nextAddress)
    (loaded : loadOrders parse calendar redis keys loading = some (ret, after)) :
    loading.nextAddress ≤ after.nextAddress ∧ PlacedIn after.map low after.nextAddress := by
  induction keys generalizing loading with
  | nil =>
    cases loaded
    exact ⟨le_rfl, placed⟩
  | cons key keys ih =>
    rw [loadOrders] at loaded
    split at loaded
    · obtain ⟨⟨ret', middle⟩, pushed, loaded⟩ := Option.bind_eq_some_iff.mp loaded
      obtain ⟨grown, placed'⟩ := dataPush_places placed above pushed
      dsimp only at loaded
      split at loaded
      · obtain ⟨grown', placed''⟩ := ih placed' (above.trans grown) loaded
        exact ⟨grown.trans grown', placed''⟩
      · cases loaded
        exact ⟨grown, placed'⟩
    · cases loaded
      exact ⟨le_rfl, placed⟩

/-- What is read stands at addresses that were free before. -/
theorem readOrders_places {nextAddress : Nat} {ret : Int} {after : Loading}
    (read : readOrders parse calendar redis nextAddress = some (ret, after)) :
    nextAddress ≤ after.nextAddress ∧ PlacedIn after.map nextAddress after.nextAddress := by
  rw [readOrders] at read
  obtain ⟨⟨ret', loading⟩, loaded, read⟩ := Option.bind_eq_some_iff.mp read
  have empty : PlacedIn ∅ nextAddress nextAddress := fun a inside => absurd inside (by simp)
  obtain ⟨grown, placed⟩ := loadOrders_places empty le_rfl loaded
  dsimp only at read
  split at read
  · obtain ⟨⟨ret'', map⟩, banned, read⟩ := Option.bind_eq_some_iff.mp read
    cases read
    have same := dataUpdateBanList_places get_toList (.refl _) banned
    exact ⟨grown, fun a inside => placed a (same.mem_addresses.mp inside)⟩
  · cases read
    exact ⟨grown, placed⟩

/-- A call leaves the orders alone, or reads new ones into the emptied map and switches or not. -/
theorem dataUpdate_cases {s : AdPlanningData} {u : Updated}
    (called : s.dataUpdate parse calendar redis = some u) :
    ¬ Clears redis s ∧ u.state = s ∨ Clears redis s ∧ ∃ loading : Loading,
      s.nextAddress ≤ loading.nextAddress ∧
        PlacedIn loading.map s.nextAddress loading.nextAddress ∧
        (OrdersRead parse calendar redis ∧ u.state = switched redis s loading ∨
          ¬ OrdersRead parse calendar redis ∧ u.state = broken s loading) := by
  by_cases clears : Clears redis s
  · right
    refine ⟨clears, ?_⟩
    rw [dataUpdate_clears clears] at called
    obtain ⟨⟨ret, loading⟩, read, rfl⟩ := Option.map_eq_some_iff.mp called
    obtain ⟨grown, placed⟩ := readOrders_places read
    refine ⟨loading, grown, placed, ?_⟩
    by_cases success : ret = adSuccess
    · subst success
      exact .inl ⟨(readOrders_ok_iff s.nextAddress).mp ⟨loading, read⟩, by simp⟩
    · refine .inr ⟨fun complete => ?_, by simp [success]⟩
      obtain ⟨other, done⟩ := (readOrders_ok_iff s.nextAddress).mpr complete
      rw [read] at done
      cases done
      exact success rfl
  · exact .inl ⟨clears, (dataUpdate_keeps clears called).1⟩

end OrderPlaces
