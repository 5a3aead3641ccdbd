import RtbAdapter.LastFilter

/-!
# The rule for keywords

A keyword order is wanted when one of its keywords, stars and scheme taken off,
stands in a mark of the user under the rule of its type. The last filter goes by
the keywords that are filed, and lets keywords wait from one mark to the next; it
keeps to the rule exactly when nothing that is lost is missed and nothing that
waits is taken for more.
-/

namespace KeywordRule

open ByteWords CText PlanningUnit RtbBase FilterTables FilterMark RtbFilters FilterReferences
open FilterResults LoadedOrders MatchedOrders KeywordTree KeywordMatch LastFilter Std

/-- An accurate keyword is as long as the mark, a fuzzy one only stands in it, and a public or
private one is for marks with the tag of the cache. -/
def Rule (type : UInt32) (key : Bytes) (mark : AdUserMark) : Prop :=
  (type = adKeysAccCus → key.length = mark.mark.length) ∧
    (type = adKeysAccCus ∨ type = adKeysDimCus ∨
      (type = adMarkPublic ∨ type = adMarkPrivate) ∧ mark.tag = adCacheTag)

/-- Some mark contains a keyword of the order that is not empty, under the rule. -/
def Wanted (u : AdPlanningUnit) (looked : List AdUserMark) : Prop :=
  ∃ mark ∈ looked, ∃ node ∈ u.keyWord, adFilterMarkGetStr node.key ≠ [] ∧
    Stands (adFilterMarkGetStr node.key) mark.mark ∧
    Rule node.type (adFilterMarkGetStr node.key) mark

/-- A keyword of the order that is not filed stands in a mark and fits it. -/
def Lost (loaded : Loaded) (looked : List AdUserMark) (a : Nat) : Prop :=
  ∃ mark ∈ looked, ∃ info ∈ keywordsOf ⟨a, orderAt loaded.orders a⟩,
    info ∉ filed loaded.orders ∧ info.key ≠ [] ∧ Stands info.key mark.mark ∧ markFits mark info

variable {loaded : Loaded} {world : MatchWorld} {r : AdRtbRequest} {result : AdResult} {a : Nat}
  {looked : List AdUserMark}

theorem markFits_iff {mark : AdUserMark} {info : AdMarkInfo} :
    markFits mark info ↔ Rule info.type info.key mark := by
  have apart : adKeysAccCus ≠ adKeysDimCus ∧ adKeysAccCus ≠ adMarkPublic ∧
      adKeysAccCus ≠ adMarkPrivate := by decide
  simp only [markFits, Rule, Bool.or_eq_true, Bool.and_eq_true, decide_eq_true_eq]
  constructor
  · rintro ((⟨type, length⟩ | type) | ⟨tag, type⟩)
    · exact ⟨fun _ => length, .inl type⟩
    · exact ⟨fun other => absurd (other.symm.trans type) apart.1, .inr (.inl type)⟩
    · refine ⟨fun other => ?_, .inr (.inr ⟨type, tag⟩)⟩
      rcases type with type | type
      · exact absurd (other.symm.trans type) apart.2.1
      · exact absurd (other.symm.trans type) apart.2.2
  · rintro ⟨length, type | type | ⟨type, tag⟩⟩
    · exact .inl (.inl ⟨type, length type⟩)
    · exact .inl (.inr type)
    · exact .inr ⟨tag, type⟩

theorem wanted_iff : Wanted (orderAt loaded.orders a) looked ↔
    ∃ mark ∈ looked, ∃ info ∈ keywordsOf ⟨a, orderAt loaded.orders a⟩,
      info.key ≠ [] ∧ Stands info.key mark.mark ∧ markFits mark info := by
  simp only [Wanted, keywordsOf, List.mem_map]
  constructor
  · rintro ⟨mark, among, node, listed, some', stands, rule⟩
    exact ⟨mark, among, _, ⟨node, listed, rfl⟩, some', stands, markFits_iff.mpr rule⟩
  · rintro ⟨mark, among, info, ⟨node, listed, rfl⟩, some', stands, fits⟩
    exact ⟨mark, among, node, listed, some', stands, markFits_iff.mp fits⟩

/-- A filed keyword is one of its order. -/
theorem filed_keywordsOf {info : AdMarkInfo} (inside : info ∈ filed loaded.orders) :
    info ∈ keywordsOf ⟨info.data, orderAt loaded.orders info.data⟩ := by
  obtain ⟨before, placed, after, split, listed, -⟩ := mem_filed.mp inside
  have among : placed ∈ loaded.orders := by
    rw [split]
    exact List.mem_append_right _ List.mem_cons_self
  obtain ⟨node, kept, rfl⟩ := List.mem_map.mp listed
  dsimp only
  rw [orderAt_address loaded.addresses among]
  exact List.mem_map.mpr ⟨node, kept, rfl⟩

/-- An order is wanted for a keyword that is filed or for one that is not. -/
theorem wanted_cases : Wanted (orderAt loaded.orders a) looked ↔
    Meets (filed loaded.orders) looked a ∨ Lost loaded looked a := by
  rw [wanted_iff]
  constructor
  · rintro ⟨mark, among, info, listed, some', stands, fits⟩
    by_cases inside : info ∈ filed loaded.orders
    · obtain ⟨node, -, rfl⟩ := List.mem_map.mp listed
      exact .inl ⟨mark, among, _, inside, stands, fits, rfl⟩
    · exact .inr ⟨mark, among, info, listed, inside, some', stands, fits⟩
  · rintro (⟨mark, among, info, inside, stands, fits, rfl⟩ |
      ⟨mark, among, info, listed, -, some', stands, fits⟩)
    · exact ⟨mark, among, info, filed_keywordsOf inside, filed_usable inside, stands, fits⟩
    · exact ⟨mark, among, info, listed, some', stands, fits⟩

/-- The last filter keeps exactly the wanted ones of the keyword orders that it gets. -/
def Exact (loaded : Loaded) (r : AdRtbRequest) (world : MatchWorld) (result : AdResult) : Prop :=
  ∃ after, (markFilter loaded).matchRequest (orderAt loaded.orders) world.user world.now r result =
      some after ∧
    ∀ a ∈ result.map Prod.fst, (orderAt loaded.orders a).order.nice = adOrderNice →
      (a ∈ after.map Prod.fst ↔ Wanted (orderAt loaded.orders a) (lookedMarks r world))

/-- The filter does not crash, and a keyword order none of whose filed keywords fits a mark it
stands in has a keyword that waits for a mark it fits exactly when it has a lost one that
fits. -/
def Straight (loaded : Loaded) (r : AdRtbRequest) (world : MatchWorld) (result : AdResult) : Prop :=
  ¬ Crashes loaded r world result ∧
    ∀ a ∈ result.map Prod.fst, (orderAt loaded.orders a).order.nice = adOrderNice →
      ¬ Meets (filed loaded.orders) (lookedMarks r world) a →
      (Stale (filed loaded.orders) (lookedMarks r world) a ↔ Lost loaded (lookedMarks r world) a)

/-- With a known user and in time, the filter is exact for the keyword orders of every result
exactly when the way through the marks is straight. -/
theorem keyword_exact_iff (sound : Sound loaded result)
    (known : (world.user (userQuery r)).isSome) (inTime : ¬ r.checkLife world.now) :
    Exact loaded r world result ↔ Straight loaded r world result := by
  obtain ⟨crashed, kept⟩ := matchRequest_looks (.inl known) (fun late => inTime late.2) sound
  have kinds : adOrderNice ≠ adOrderBase ∧ adOrderNice ≠ adOrderAudience := by decide
  constructor
  · rintro ⟨after, matched, exact_⟩
    have safe : ¬ Crashes loaded r world result := by
      intro crashes
      rw [crashed crashes] at matched
      exact absurd matched (by simp)
    obtain ⟨after', matched', keys⟩ := kept safe
    obtain rfl : after = after' := Option.some.inj (matched.symm.trans matched')
    refine ⟨safe, fun a listed nice unmet => ?_⟩
    have same := exact_ a listed nice
    rw [keys, Chosen, nice, wanted_cases] at same
    simpa [listed, kinds.1, kinds.2, unmet] using same
  · rintro ⟨safe, straight⟩
    obtain ⟨after, matched, keys⟩ := kept safe
    refine ⟨after, matched, fun a listed nice => ?_⟩
    rw [keys, Chosen, nice, wanted_cases]
    by_cases meets : Meets (filed loaded.orders) (lookedMarks r world) a
    · simp [listed, meets]
    · simpa [listed, kinds.1, kinds.2, meets] using straight a listed nice meets

/-- An order with the accurate keyword "ab". -/
def keywordOrder : AdPlanningUnit where
  order := { executeId := 7, nice := adOrderNice }
  keyWord := [⟨adKeysAccCus, ascii "ab"⟩]

/-- A user with some marks. -/
def userWith (marks : List String) : MatchWorld where
  clock := ⟨1, 10⟩
  second := 0
  now := ⟨0, 0⟩
  infos _ := none
  user _ := some { marks := marks.map fun mark => ⟨ascii mark, 1, 0⟩ }

theorem sound_keywordOrder : Sound (single keywordOrder) [(0, {})] :=
  ⟨List.pairwise_singleton _ _, fun entry inside => by
    rw [List.mem_singleton.mp inside]
    exact List.mem_singleton_self _⟩

/-- The filter is exact for a user with the mark "AB". -/
theorem keyword_met :
    Exact (single keywordOrder) (AdRtbRequest.clear ⟨0, 0⟩) (userWith ["AB"]) [(0, {})] := by
  refine (keyword_exact_iff sound_keywordOrder rfl (by decide)).mpr ⟨?_, ?_⟩
  · rintro ⟨-, bare, -⟩
    exact absurd bare (by decide)
  · intro a listed _ unmet
    obtain rfl : a = 0 := List.mem_singleton.mp listed
    refine absurd
      ⟨⟨ascii "AB", 1, 0⟩, .head _, ⟨adKeysAccCus, ascii "ab", 0⟩, ?_, ?_, ?_, rfl⟩ unmet
    · exact mem_filed.mpr ⟨[], ⟨0, keywordOrder⟩, [], rfl, .head _, by decide⟩
    · decide
    · decide

/-- For a user with the marks "xabx" and "zz" the order is kept: the keyword is found in the
first mark, and has the length of the second. -/
theorem waiting_keyword_kept :
    ¬ ∀ (loaded : Loaded) (r : AdRtbRequest) (world : MatchWorld) (result : AdResult),
      Sound loaded result → (world.user (userQuery r)).isSome → ¬ r.checkLife world.now →
      Exact loaded r world result := by
  intro all
  obtain ⟨after, matched, same⟩ := all (single keywordOrder) (AdRtbRequest.clear ⟨0, 0⟩)
    (userWith ["xabx", "zz"]) [(0, {})] sound_keywordOrder rfl (by decide)
  have kept : (markFilter (single keywordOrder)).matchRequest (orderAt (single keywordOrder).orders)
      (userWith ["xabx", "zz"]).user ⟨0, 0⟩ (AdRtbRequest.clear ⟨0, 0⟩) [(0, {})] =
      some [(0, {})] := by
    decide
  obtain rfl := Option.some.inj (matched.symm.trans kept)
  have wanted := (same 0 (.head _) rfl).mp (.head _)
  refine absurd wanted ?_
  rw [wanted_iff]
  decide

end KeywordRule
