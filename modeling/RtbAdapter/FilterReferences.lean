import RtbAdapter.RtbFilters

/-!
# The orders that filters refer to

Filters hold the addresses of the orders that were added to them and no others, and
a match returns none but these.
-/

namespace FilterReferences

open ByteWords PlanningUnit RtbBase FilterTables FilterMark RtbFilters Std
open NetProtocol (adSuccess adFailure)

theorem addresses_addData {keys : AdPlanningUnit → List Bytes} {table : AdMap Nat}
    {placed : Allocated} {a : Nat}
    (inside : a ∈ AdMap.addresses (FilterTables.addData keys table placed)) :
    a ∈ AdMap.addresses table ∨ a = placed.address := by
  simp only [AdMap.addresses, FilterTables.addData, List.map_append, List.map_map,
    List.mem_append, List.mem_map, Function.comp_apply] at inside ⊢
  rcases inside with old | ⟨_, _, rfl⟩
  · exact .inl old
  · exact .inr rfl

/-- The addresses in the tree of patterns. -/
def treeAddresses (tree : AdAcbmTree) : List Nat := tree.data.map fun entry => entry.2.data

theorem treeAddresses_add {tree : AdAcbmTree} {mark : AdMarkInfo} {a : Nat}
    (inside : a ∈ treeAddresses (tree.add mark).2) :
    a ∈ treeAddresses tree ∨ a = mark.data := by
  rw [AdAcbmTree.add] at inside
  split at inside
  · simp [treeAddresses] at inside
  · simpa [treeAddresses] using inside

theorem addMarks_addresses {address : Nat} {nodes : List AdMarkNode} {filter : AdFilterMark}
    {a : Nat} (inside : a ∈ markAddresses (addMarks address nodes filter).2) :
    a ∈ markAddresses filter ∨ a = address := by
  induction nodes generalizing filter with
  | nil => exact .inl inside
  | cons node nodes ih =>
    let mark : AdMarkInfo := ⟨node.type, adFilterMarkGetStr node.key, address⟩
    have step : ∀ a ∈ markAddresses
          { filter with tree := (filter.tree.add mark).2, marks := filter.marks ++ [mark] },
        a ∈ markAddresses filter ∨ a = address := by
      intro a inside
      rcases List.mem_append.mp inside with inside | found
      · rcases List.mem_append.mp inside with listed | planted
        · rw [List.map_append, List.mem_append] at listed
          rcases listed with old | new
          · exact .inl (List.mem_append_left _ (List.mem_append_left _ old))
          · exact .inr (List.mem_singleton.mp new)
        · rcases treeAddresses_add planted with old | new
          · exact .inl (List.mem_append_left _ (List.mem_append_right _ old))
          · exact .inr new
      · exact .inl (List.mem_append_right _ found)
    rw [addMarks] at inside
    dsimp only at inside
    split at inside
    · rcases ih inside with inside | new
      · exact step a inside
      · exact .inr new
    · exact step a inside

theorem audienceEntries_data {address : Nat} {node : AdAudienceNode}
    {entry : Bytes × AdAudienceInfo} (inside : entry ∈ audienceEntries address node) :
    entry.2.data = address := by
  simp only [audienceEntries, List.mem_append, List.mem_map] at inside
  rcases inside with (⟨_, _, rfl⟩ | ⟨_, _, rfl⟩) | ⟨_, _, rfl⟩ <;> rfl

theorem addAudience_addresses {placed : Allocated} {filter : AdFilterMark} {a : Nat}
    (inside : a ∈ markAddresses (addAudience placed filter)) :
    a ∈ markAddresses filter ∨ a = placed.address := by
  rcases List.mem_append.mp inside with kept | found
  · refine .inl (List.mem_append_left _ ?_)
    rw [addAudience] at kept
    dsimp only at kept
    split at kept <;> exact kept
  · rw [addAudience] at found
    dsimp only at found
    rw [List.map_append, List.mem_append] at found
    rcases found with old | new
    · refine .inl (List.mem_append_right _ ?_)
      split at old <;> exact old
    · obtain ⟨entry, listed, rfl⟩ := List.mem_map.mp new
      obtain ⟨node, _, listed⟩ := List.mem_flatMap.mp listed
      exact .inr (audienceEntries_data listed)

theorem mark_addData_addresses {placed : Allocated} {filter : AdFilterMark} {a : Nat}
    (inside : a ∈ markAddresses (filter.addData placed)) :
    a ∈ markAddresses filter ∨ a = placed.address := by
  rw [AdFilterMark.addData] at inside
  dsimp only at inside
  split at inside
  · rcases addAudience_addresses inside with inside | new
    · exact addMarks_addresses inside
    · exact .inr new
  · exact addMarks_addresses inside

theorem references_addData {filters : Filters} {placed : Allocated} {a : Nat}
    (inside : a ∈ (filters.addData placed).references) :
    a ∈ filters.references ∨ a = placed.address := by
  rcases List.mem_append.mp inside with tables | marks
  · have table : ∀ {keys : AdPlanningUnit → List Bytes} {old : AdMap Nat},
        (∀ a ∈ AdMap.addresses old, a ∈ filters.references) →
        a ∈ AdMap.addresses (FilterTables.addData keys old placed) →
        a ∈ filters.references ∨ a = placed.address :=
      fun old found => (addresses_addData found).imp_left (old a)
    simp only [Filters.addData, List.flatMap_cons, List.flatMap_nil, List.mem_append,
      List.append_nil] at tables
    rcases tables with h | h | h | h | h | h | h | h | h | h | h | h <;>
      exact table (fun a old => by simp [Filters.references, old]) h
  · exact (mark_addData_addresses marks).imp_left fun old => List.mem_append_right _ old

theorem references_build {orders : List Allocated} {a : Nat}
    (inside : a ∈ (build orders).references) : ∃ placed ∈ orders, placed.address = a := by
  have step : ∀ (orders : List Allocated) (filters : Filters),
      a ∈ (orders.foldl Filters.addData filters).references →
        a ∈ filters.references ∨ ∃ placed ∈ orders, placed.address = a := by
    intro orders
    induction orders with
    | nil => exact fun filters inside => .inl inside
    | cons placed orders ih =>
      intro filters inside
      rcases ih _ inside with inside | ⟨other, listed, same⟩
      · rcases references_addData inside with old | rfl
        · exact .inl old
        · exact .inr ⟨placed, List.mem_cons_self, rfl⟩
      · exact .inr ⟨other, List.mem_cons_of_mem _ listed, same⟩
  exact (step orders {} inside).resolve_left
    (by simp [Filters.references, markAddresses, AdMap.addresses])

/-- A result holds addresses from a list only. -/
def Within (known : List Nat) (result : AdResult) : Prop := ∀ entry ∈ result, entry.1 ∈ known

variable {unit : Nat → AdPlanningUnit} {known : List Nat} {result : AdResult}

theorem Within.upsert (within : Within known result)
    {change : AdRtbFilterResult → AdRtbFilterResult} {address : Nat} (inside : address ∈ known) :
    Within known (FilterTables.upsert unit change address result) := by
  induction result with
  | nil => simpa [FilterTables.upsert, Within] using inside
  | cons entry rest ih =>
    obtain ⟨here, rest⟩ := List.forall_mem_cons.mp within
    rw [FilterTables.upsert]
    split
    · exact List.forall_mem_cons.mpr ⟨inside, within⟩
    split
    · exact List.forall_mem_cons.mpr ⟨here, rest⟩
    · exact List.forall_mem_cons.mpr ⟨here, ih rest⟩

theorem Within.filter (within : Within known result) (keeps : Nat × AdRtbFilterResult → Bool) :
    Within known (result.filter keeps) :=
  fun entry inside => within entry (List.mem_of_mem_filter inside)

theorem Within.foldl {α : Type} {f : AdResult → α → AdResult} {items : List α}
    (step : ∀ result, ∀ x ∈ items, Within known result → Within known (f result x))
    (within : Within known result) : Within known (items.foldl f result) := by
  induction items generalizing result with
  | nil => exact within
  | cons x items ih =>
    exact ih (fun result y inside => step result y (List.mem_cons_of_mem _ inside))
      (step result x List.mem_cons_self within)

theorem mem_find {α : Type} {table : AdMap α} {key : Bytes} {x : α} :
    x ∈ table.find key ↔ (key, x) ∈ table := by
  simp [AdMap.find]

theorem hit_within {bit : UInt32} {table : AdMap Nat} {keys : List Bytes}
    (filed : ∀ a ∈ AdMap.addresses table, a ∈ known) (within : Within known result) :
    Within known (hit unit bit table keys result) := by
  refine Within.foldl (fun result address found within => within.upsert ?_) within
  obtain ⟨key, _, found⟩ := List.mem_flatMap.mp found
  exact filed address (List.mem_map.mpr ⟨_, mem_find.mp found, rfl⟩)

theorem eraseAll_within {table : AdMap Nat} {keys : List Bytes} (within : Within known result) :
    Within known (eraseAll unit table keys result) :=
  Within.foldl (fun _ _ _ within => within.filter _) within

theorem matchMarks_within {tree : AdAcbmTree} {ready : List Nat} (listed : ∀ a ∈ ready, a ∈ known)
    {marks : List AdUserMark} {found : List AdMarkInfo} {after : AdResult}
    (within : Within known result)
    (matched : matchMarks unit tree ready marks found result = some after) :
    Within known after := by
  induction marks generalizing found result with
  | nil =>
    cases matched
    exact within
  | cons mark marks ih =>
    rw [matchMarks] at matched
    obtain ⟨new, _, matched⟩ := Option.bind_eq_some_iff.mp matched
    dsimp only at matched
    split at matched
    · exact ih within matched
    · refine ih (Within.foldl (fun result a inside within => ?_) within) matched
      exact within.upsert (listed a (List.mem_of_mem_filter inside))

theorem mergeAudience_data {info : AdAudienceInfo} {found : List AdAudienceInfo}
    {x : AdAudienceInfo} (inside : x ∈ mergeAudience info found) :
    x.data = info.data ∨ ∃ other ∈ found, x.data = other.data := by
  induction found with
  | nil =>
    obtain rfl := List.mem_singleton.mp inside
    exact .inl rfl
  | cons other rest ih =>
    rw [mergeAudience] at inside
    split at inside
    · rcases List.mem_cons.mp inside with rfl | inside
      · exact .inl rfl
      · exact .inr ⟨x, List.mem_cons_of_mem _ inside, rfl⟩
    · rcases List.mem_cons.mp inside with rfl | inside
      · exact .inr ⟨x, List.mem_cons_self, rfl⟩
      · rcases ih inside with same | ⟨y, listed, same⟩
        · exact .inl same
        · exact .inr ⟨y, List.mem_cons_of_mem _ listed, same⟩

theorem foundAudience_data {filter : AdFilterMark} {marks : List AdUserMark} {x : AdAudienceInfo}
    (inside : x ∈ foundAudience filter marks) :
    x.data ∈ filter.audience.map fun entry => entry.2.data := by
  have step : ∀ (infos found : List AdAudienceInfo),
      (∀ y ∈ infos, y.data ∈ filter.audience.map fun entry => entry.2.data) →
      (∀ y ∈ found, y.data ∈ filter.audience.map fun entry => entry.2.data) →
      ∀ y ∈ infos.foldl (fun found info => mergeAudience info found) found,
        y.data ∈ filter.audience.map fun entry => entry.2.data := by
    intro infos
    induction infos with
    | nil => exact fun found _ old => old
    | cons info infos ih =>
      intro found new old
      obtain ⟨here, new⟩ := List.forall_mem_cons.mp new
      refine ih _ new fun y inside => ?_
      rcases mergeAudience_data inside with same | ⟨other, listed, same⟩
      · exact same ▸ here
      · exact same ▸ old other listed
  refine step _ [] (fun y listed => ?_) (by simp) x inside
  obtain ⟨mark, _, listed⟩ := List.mem_flatMap.mp listed
  obtain ⟨n, _, listed⟩ := List.mem_flatMap.mp listed
  exact List.mem_map.mpr ⟨_, mem_find.mp (List.mem_of_mem_filter listed), rfl⟩

theorem matchAudience_within {filter : AdFilterMark} {marks : List AdUserMark} {ready : AdResult}
    (filed : ∀ a ∈ markAddresses filter, a ∈ known) (within : Within known result) :
    Within known (matchAudience unit filter marks ready result) := by
  rw [matchAudience]
  split
  · exact within
  · refine Within.foldl (fun result info inside within => within.upsert (filed _ ?_)) within
    exact List.mem_append_right _ (foundAudience_data (List.mem_of_mem_filter inside))

theorem vipUserTag_within {executeID : Bytes} (within : Within known result) :
    Within known (vipUserTag unit executeID result) := by
  rw [vipUserTag]
  split
  · exact within
  · intro entry inside
    obtain ⟨old, listed, rfl⟩ := List.mem_map.mp inside
    have here := within old listed
    split <;> exact here

theorem matchRequest_within {filter : AdFilterMark} {user : AdUserData → Option AdUserData}
    {now : Time} {r : AdRtbRequest} {after : AdResult}
    (filed : ∀ a ∈ markAddresses filter, a ∈ known) (within : Within known result)
    (matched : filter.matchRequest unit user now r result = some after) : Within known after := by
  have base := within.filter fun entry => niceOf unit entry = adOrderBase
  rw [AdFilterMark.matchRequest] at matched
  dsimp only at matched
  split at matched
  · cases matched
    exact base
  split at matched
  · cases matched
    simp [Within]
  have finish : ∀ (tagged : Bool) (id : Bytes) (marks : List AdUserMark) (ready marked : AdResult),
      Within known marked →
      Within known (if tagged then vipUserTag unit id (matchAudience unit filter marks ready marked)
        else matchAudience unit filter marks ready marked) := by
    intro tagged id marks ready marked within
    have joined : Within known (matchAudience unit filter marks ready marked) :=
      matchAudience_within filed within
    cases tagged
    · exact joined
    · exact vipUserTag_within joined
  split at matched
  · cases matched
    exact finish _ _ _ _ _ base
  · obtain ⟨marked, found, matched⟩ := Option.bind_eq_some_iff.mp matched
    cases matched
    refine finish _ _ _ _ _ (matchMarks_within (fun a inside => ?_) base found)
    obtain ⟨entry, listed, rfl⟩ := List.mem_map.mp inside
    exact within entry (List.mem_of_mem_filter listed)

theorem runFilters_within {filters : List (AdResult → Option AdResult)} {after : AdResult}
    (step : ∀ filter ∈ filters, ∀ result after, Within known result →
      filter result = some after → Within known after)
    (within : Within known result) (run : runFilters filters result = some after) :
    Within known after := by
  induction filters generalizing result with
  | nil =>
    cases run
    exact within
  | cons filter filters ih =>
    obtain ⟨here, step⟩ := List.forall_mem_cons.mp step
    rw [runFilters] at run
    obtain ⟨middle, filtered, run⟩ := Option.bind_eq_some_iff.mp run
    split at run
    · cases run
      simp [Within]
    · exact ih step (here result middle within filtered) run

/-- A match returns orders that the filters refer to. -/
theorem filtersMatch_references {filters : Filters} {world : MatchWorld} {r : AdRtbRequest}
    {after : AdResult} (matched : filtersMatch unit filters world r = some after) :
    ∀ entry ∈ after, entry.1 ∈ filters.references := by
  have table : ∀ table ∈ [filters.time, filters.adExchange, filters.pid, filters.area,
      filters.size, filters.userAgent, filters.mobileOperator, filters.mobileDevice,
      filters.mobileConnect], ∀ a ∈ AdMap.addresses table, a ∈ filters.references := by
    intro table listed a inside
    refine List.mem_append_left _ (List.mem_flatMap.mpr ⟨table, ?_, inside⟩)
    simp only [List.mem_cons, List.not_mem_nil, or_false] at listed ⊢
    tauto
  have marks : ∀ a ∈ markAddresses filters.mark, a ∈ filters.references :=
    fun a inside => List.mem_append_right _ inside
  refine runFilters_within ?_ (fun entry inside => absurd inside List.not_mem_nil) matched
  simp only [chain, List.forall_mem_cons, List.not_mem_nil, false_imp_iff, implies_true, and_true,
    Option.some.injEq] at table ⊢
  have hits : ∀ {bit : UInt32} {table : AdMap Nat} {keys : List Bytes},
      (∀ a ∈ AdMap.addresses table, a ∈ filters.references) → ∀ result after,
      Within filters.references result → hit unit bit table keys result = after →
      Within filters.references after :=
    fun filed _ _ within same => same ▸ hit_within filed within
  obtain ⟨time, adExchange, pid, area, size, userAgent, operator, device, connect⟩ := table
  refine ⟨hits time, hits adExchange, hits pid, hits area, hits size, hits userAgent,
    hits operator, hits device, hits connect, ?_, ?_, ?_, ?_, ?_, ?_, ?_⟩
  · exact fun _ _ within same => same ▸ within.filter _
  · exact fun _ _ within same => same ▸ eraseAll_within within
  · exact fun _ _ within same => same ▸ within
  · exact fun _ _ within same => same ▸ eraseAll_within within
  · exact fun _ _ within same => same ▸ within.filter _
  · exact fun _ _ within same => same ▸ within
  · exact fun _ _ within same => matchRequest_within marks within same

end FilterReferences
