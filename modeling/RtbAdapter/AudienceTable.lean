import RtbAdapter.LastFilter

/-!
# The audiences of one order

The table of audiences holds what each order with usable keywords has filed, and
the bounds on the lengths of the keys leave nothing of it out. What is found for an
order is joined from its own entries only.
-/

namespace AudienceTable

open ByteWords CText PlanningUnit RtbBase FilterTables FilterMark RtbFilters FilterReferences
open FilterResults LoadedOrders MatchedOrders KeywordTree KeywordMatch LastFilter Std
open NetProtocol (adSuccess adFailure)

/-- The entries of an order in the table. -/
def entriesOf (placed : Allocated) : List (Bytes × AdAudienceInfo) :=
  if Usable placed then placed.unit.audience.flatMap (audienceEntries placed.address) else []

/-- The bounds hold for the lengths of all keys. -/
def Bounded (filter : AdFilterMark) : Prop :=
  ∀ entry ∈ filter.audience,
    filter.strMinLen ≤ entry.1.length ∧ entry.1.length ≤ filter.strMaxLen

variable {loaded : Loaded} {filter : AdFilterMark} {placed : Allocated} {a : Nat}

theorem foldl_min_le {α : Type} (length : α → Nat) (entries : List α) (n : Nat) :
    entries.foldl (fun n entry => min n (length entry)) n ≤ n ∧
      ∀ entry ∈ entries, entries.foldl (fun n entry => min n (length entry)) n ≤ length entry := by
  induction entries generalizing n with
  | nil => simp
  | cons first entries ih =>
    obtain ⟨below, rest⟩ := ih (min n (length first))
    rw [List.foldl_cons]
    refine ⟨below.trans (Nat.min_le_left _ _), fun entry among => ?_⟩
    rcases List.mem_cons.mp among with rfl | among
    · exact below.trans (Nat.min_le_right _ _)
    · exact rest entry among

theorem le_foldl_max {α : Type} (length : α → Nat) (entries : List α) (n : Nat) :
    n ≤ entries.foldl (fun n entry => max n (length entry)) n ∧
      ∀ entry ∈ entries, length entry ≤ entries.foldl (fun n entry => max n (length entry)) n := by
  induction entries generalizing n with
  | nil => simp
  | cons first entries ih =>
    obtain ⟨above, rest⟩ := ih (max n (length first))
    rw [List.foldl_cons]
    refine ⟨(Nat.le_max_left _ _).trans above, fun entry among => ?_⟩
    rcases List.mem_cons.mp among with rfl | among
    · exact (Nat.le_max_right _ _).trans above
    · exact rest entry among

theorem addMarks_audience (address : Nat) (nodes : List AdMarkNode) (filter : AdFilterMark) :
    (addMarks address nodes filter).2.audience = filter.audience ∧
      (addMarks address nodes filter).2.strMinLen = filter.strMinLen ∧
      (addMarks address nodes filter).2.strMaxLen = filter.strMaxLen := by
  induction nodes generalizing filter with
  | nil => exact ⟨rfl, rfl, rfl⟩
  | cons node nodes ih =>
    rw [addMarks]
    dsimp only
    split
    · exact ih _
    · exact ⟨rfl, rfl, rfl⟩

theorem addAudience_bounded (bounded : Bounded filter) :
    (addAudience placed filter).audience =
        filter.audience ++ placed.unit.audience.flatMap (audienceEntries placed.address) ∧
      Bounded (addAudience placed filter) := by
  rw [addAudience]
  dsimp only
  set entries := placed.unit.audience.flatMap (audienceEntries placed.address) with entries_
  have widened : ∀ start : AdFilterMark, start.audience = filter.audience → Bounded start →
      ({ start with
          audience := start.audience ++ entries
          strMinLen := entries.foldl (fun n entry => min n entry.1.length) start.strMinLen
          strMaxLen := entries.foldl (fun n entry => max n entry.1.length) start.strMaxLen } :
        AdFilterMark).audience = filter.audience ++ entries ∧
      Bounded { start with
          audience := start.audience ++ entries
          strMinLen := entries.foldl (fun n entry => min n entry.1.length) start.strMinLen
          strMaxLen := entries.foldl (fun n entry => max n entry.1.length) start.strMaxLen } := by
    intro start same bounds
    refine ⟨congrArg (· ++ entries) same, fun entry among => ?_⟩
    obtain ⟨below, shorter⟩ := foldl_min_le (fun entry : Bytes × AdAudienceInfo => entry.1.length)
      entries start.strMinLen
    obtain ⟨above, longer⟩ := le_foldl_max (fun entry : Bytes × AdAudienceInfo => entry.1.length)
      entries start.strMaxLen
    rcases List.mem_append.mp among with old | new
    · obtain ⟨low, high⟩ := bounds entry old
      exact ⟨below.trans low, high.trans above⟩
    · exact ⟨shorter entry new, longer entry new⟩
  split
  · next bare =>
    refine widened _ rfl fun entry among => ?_
    exact absurd (bare ▸ among : entry ∈ []) (by simp)
  · exact widened filter rfl bounded

/-- An order adds its entries to the table. -/
theorem addData_audience {marks : List AdMarkInfo} (tree : filter.tree = treeOf marks)
    (bounded : Bounded filter) :
    (filter.addData placed).audience = filter.audience ++ entriesOf placed ∧
      Bounded (filter.addData placed) := by
  obtain ⟨audience, low, high⟩ := addMarks_audience placed.address placed.unit.keyWord filter
  have bounded' : Bounded (addMarks placed.address placed.unit.keyWord filter).2 := by
    rw [Bounded, audience, low, high]
    exact bounded
  obtain ⟨success, -⟩ := addMarks_treeOf placed.address placed.unit.keyWord tree
  have usable : (addMarks placed.address placed.unit.keyWord filter).1 = adSuccess ↔
      Usable placed := success
  rw [AdFilterMark.addData, entriesOf]
  dsimp only
  simp only [usable]
  split
  · rw [← audience]
    exact addAudience_bounded bounded'
  · exact ⟨by rw [audience, List.append_nil], bounded'⟩

/-- The table over some orders. -/
theorem markFilter_audience : (markFilter loaded).audience = loaded.orders.flatMap entriesOf ∧
    Bounded (markFilter loaded) := by
  rw [markFilter]
  induction loaded.orders using List.reverseRecOn with
  | nil => exact ⟨rfl, fun entry among => absurd among (by simp)⟩
  | append_singleton orders last ih =>
    rw [List.foldl_append, List.foldl_cons, List.foldl_nil, List.flatMap_append,
      List.flatMap_singleton, ← ih.1]
    exact addData_audience (tree_filed orders) ih.2

theorem audienceEntries_address {address : Nat} {node : AdAudienceNode}
    {entry : Bytes × AdAudienceInfo} (among : entry ∈ audienceEntries address node) :
    entry.2.data = address := audienceEntries_data among

/-- The entries of an order are those with its address. -/
theorem entries_own (inside : placed ∈ loaded.orders) :
    (markFilter loaded).audience.filter (fun entry => entry.2.data = placed.address) =
      entriesOf placed := by
  have own : ∀ other ∈ loaded.orders, ∀ entry ∈ entriesOf other,
      entry.2.data = other.address := by
    intro other _ entry among
    rw [entriesOf] at among
    split at among
    · obtain ⟨node, -, filed⟩ := List.mem_flatMap.mp among
      exact audienceEntries_address filed
    · exact absurd among (by simp)
  have alone : ∀ orders : List Allocated, (orders.map Allocated.address).Nodup →
      (∀ other ∈ orders, ∀ entry ∈ entriesOf other, entry.2.data = other.address) →
      placed ∈ orders →
      (orders.flatMap entriesOf).filter (fun entry => entry.2.data = placed.address) =
        entriesOf placed := by
    intro orders
    induction orders with
    | nil => exact fun _ _ among => absurd among (by simp)
    | cons other orders ih =>
      intro apart own among
      obtain ⟨new, apart⟩ := List.nodup_cons.mp apart
      rw [List.flatMap_cons, List.filter_append]
      have away : ∀ q, q.address ≠ placed.address →
          (∀ entry ∈ entriesOf q, entry.2.data = q.address) →
          (entriesOf q).filter (fun entry => entry.2.data = placed.address) = [] := by
        intro q other' filed
        refine List.filter_eq_nil_iff.mpr fun entry among => ?_
        rw [filed entry among]
        simpa using other'
      rcases List.mem_cons.mp among with rfl | among
      · rw [List.filter_eq_self.mpr fun entry filed => by
          simpa using own placed List.mem_cons_self entry filed]
        have rest : (orders.flatMap entriesOf).filter
            (fun entry => entry.2.data = placed.address) = [] := by
          refine List.filter_eq_nil_iff.mpr fun entry filed => ?_
          obtain ⟨q, listed, filed⟩ := List.mem_flatMap.mp filed
          rw [own q (.tail _ listed) entry filed]
          simp only [decide_eq_true_eq]
          intro same
          exact new (same ▸ List.mem_map_of_mem listed)
        rw [rest, List.append_nil]
      · have apart' : other.address ≠ placed.address := by
          intro same
          exact new (same ▸ List.mem_map_of_mem among)
        rw [away other apart' (own other List.mem_cons_self), List.nil_append]
        exact ih apart (fun q listed => own q (.tail _ listed)) among
  rw [markFilter_audience.1]
  exact alone _ loaded.addresses own inside

/-- The entries of an order under the proper beginnings of the marks that are not too old. -/
def ownHits (entries : List (Bytes × AdAudienceInfo)) (marks : List AdUserMark) :
    List AdAudienceInfo :=
  marks.flatMap fun mark => (List.range mark.mark.length).flatMap fun n =>
    (AdMap.find entries (mark.mark.take n)).filter fun info => mark.time ≤ info.effectiveTime

/-- Hits joined one after the other. -/
def joined (hits : List AdAudienceInfo) : List AdAudienceInfo :=
  hits.foldl (fun found info => mergeAudience info found) []

theorem find_filter {entries : List (Bytes × AdAudienceInfo)} {key : Bytes} :
    (AdMap.find entries key).filter (fun info => info.data = a) =
      AdMap.find (entries.filter fun entry => entry.2.data = a) key := by
  rw [AdMap.find, AdMap.find, List.filter_map, List.filter_filter, List.filter_filter]
  congr 1
  refine List.filter_congr fun entry _ => ?_
  simp [Bool.and_comm]

/-- Every key that is hit has a length within the bounds. -/
theorem flatMap_bounded (bounded : Bounded filter) (mark : AdUserMark) :
    ((List.range mark.mark.length).filter fun n =>
        filter.strMinLen ≤ n ∧ n ≤ filter.strMaxLen).flatMap (fun n =>
      (filter.audience.find (mark.mark.take n)).filter fun info =>
        mark.time ≤ info.effectiveTime) =
      (List.range mark.mark.length).flatMap fun n =>
        (filter.audience.find (mark.mark.take n)).filter fun info =>
          mark.time ≤ info.effectiveTime := by
  have inside : ∀ n ∈ List.range mark.mark.length,
      ¬ (filter.strMinLen ≤ n ∧ n ≤ filter.strMaxLen) →
      filter.audience.find (mark.mark.take n) = [] := by
    intro n short outside
    rw [List.eq_nil_iff_forall_not_mem]
    intro info found
    obtain ⟨entry, filed, -⟩ := List.mem_map.mp found
    obtain ⟨listed, same⟩ := List.mem_filter.mp filed
    have bounds := bounded entry listed
    rw [of_decide_eq_true same, List.length_take,
      Nat.min_eq_left (List.mem_range.mp short).le] at bounds
    exact outside bounds
  generalize List.range mark.mark.length = lengths at inside
  induction lengths with
  | nil => rfl
  | cons n lengths ih =>
    have rest := ih fun m among => inside m (.tail _ among)
    rw [List.flatMap_cons, List.filter_cons]
    split
    · rw [List.flatMap_cons, rest]
    · next outside =>
      rw [rest, inside n List.mem_cons_self (by simpa using outside), List.filter_nil,
        List.nil_append]

/-- Joining an order's entry concerns no other order. -/
theorem mergeAudience_filter (info : AdAudienceInfo) (found : List AdAudienceInfo) :
    (mergeAudience info found).filter (fun i => i.data = a) =
      if info.data = a then mergeAudience info (found.filter fun i => i.data = a)
      else found.filter fun i => i.data = a := by
  induction found with
  | nil =>
    rw [mergeAudience, List.filter_cons, List.filter_nil]
    by_cases own : info.data = a <;> simp [own]
    rfl
  | cons other found ih =>
    rw [mergeAudience]
    by_cases same : other.data = info.data
    · rw [if_pos same, List.filter_cons, List.filter_cons]
      by_cases own : info.data = a
      · simp [own, same, mergeAudience]
      · simp [own, same]
    · rw [if_neg same, List.filter_cons, List.filter_cons, ih]
      by_cases own : info.data = a
      · subst own
        simp [same]
      · simp [own]

theorem joined_filter (hits : List AdAudienceInfo) :
    (joined hits).filter (fun info => info.data = a) =
      joined (hits.filter fun info => info.data = a) := by
  have step : ∀ found : List AdAudienceInfo,
      (hits.foldl (fun found info => mergeAudience info found) found).filter
          (fun info => info.data = a) =
        (hits.filter fun info => info.data = a).foldl (fun found info => mergeAudience info found)
          (found.filter fun info => info.data = a) := by
    induction hits with
    | nil => exact fun found => rfl
    | cons info hits ih =>
      intro found
      rw [List.foldl_cons, ih, mergeAudience_filter, List.filter_cons]
      by_cases own : info.data = a <;> simp [own]
  exact step []

/-- What is found for an order is joined from its own hits. -/
theorem foundAudience_own (inside : placed ∈ loaded.orders) (marks : List AdUserMark) :
    (foundAudience (markFilter loaded) marks).filter (fun info => info.data = placed.address) =
      joined (ownHits (entriesOf placed) marks) := by
  have hits : (marks.flatMap fun mark => (List.range mark.mark.length).flatMap fun n =>
      ((markFilter loaded).audience.find (mark.mark.take n)).filter fun info =>
        mark.time ≤ info.effectiveTime).filter (fun info => info.data = placed.address) =
      ownHits (entriesOf placed) marks := by
    rw [List.filter_flatMap, ownHits]
    congr 1
    funext mark
    rw [List.filter_flatMap]
    congr 1
    funext n
    rw [List.filter_filter, ← entries_own inside, ← find_filter, List.filter_filter]
    refine List.filter_congr fun info _ => ?_
    exact Bool.and_comm _ _
  rw [foundAudience]
  have whole : (marks.flatMap fun mark =>
      ((List.range mark.mark.length).filter fun n =>
          (markFilter loaded).strMinLen ≤ n ∧ n ≤ (markFilter loaded).strMaxLen).flatMap fun n =>
        ((markFilter loaded).audience.find (mark.mark.take n)).filter fun info =>
          mark.time ≤ info.effectiveTime) =
      marks.flatMap fun mark => (List.range mark.mark.length).flatMap fun n =>
        ((markFilter loaded).audience.find (mark.mark.take n)).filter fun info =>
          mark.time ≤ info.effectiveTime :=
    List.flatMap_congr fun mark _ => flatMap_bounded markFilter_audience.2 mark
  rw [whole]
  have joined' := joined_filter (a := placed.address)
    (marks.flatMap fun mark => (List.range mark.mark.length).flatMap fun n =>
      ((markFilter loaded).audience.find (mark.mark.take n)).filter fun info =>
        mark.time ≤ info.effectiveTime)
  rw [hits] at joined'
  exact joined'

/-- Whether the audience of an order fits is a matter of its own entries. -/
theorem audienceFits_iff (inside : placed ∈ loaded.orders) (marks : List AdUserMark) :
    AudienceFits loaded marks placed.address ↔
      ∃ info ∈ joined (ownHits (entriesOf placed) marks), audienceFits info := by
  rw [← foundAudience_own inside]
  constructor
  · rintro ⟨info, found, fits, own⟩
    exact ⟨info, List.mem_filter.mpr ⟨found, by simpa using own⟩, fits⟩
  · rintro ⟨info, found, fits⟩
    obtain ⟨found, own⟩ := List.mem_filter.mp found
    exact ⟨info, found, fits, of_decide_eq_true own⟩

end AudienceTable
