import RtbAdapter.AudienceTable

/-!
# Orders beside each other

An order is matched among others as it is when it is loaded alone, as far as the
tables, the parameters and the audiences go. Keywords are kept in one tree and
looked for in one loop: an order loaded later can take them away, and a keyword of
another order that fits can end the waiting of those that did not.
-/

namespace OrderInterference

open ByteWords CText PlanningUnit RtbBase FilterTables FilterMark RtbFilters FilterReferences
open FilterResults LoadedOrders MatchedOrders KeywordTree KeywordMatch LastFilter AudienceTable Std

/-- One order, where it stands among others. -/
def alone (placed : Allocated) : Loaded where
  orders := [placed]
  addresses := List.nodup_singleton _
  execIds := List.nodup_singleton _

/-- The order is in the map that a match returns. -/
def Gets (loaded : Loaded) (descriptions : AdMap AdTanxDescription) (world : MatchWorld)
    (r : AdRtbRequest) (a : Nat) : Prop :=
  ∃ got, candidates loaded descriptions world r = some got ∧ a ∈ got

/-- The order passes all filters in front of the last one. -/
structure Survives (u : AdPlanningUnit) (descriptions : AdMap AdTanxDescription)
    (world : MatchWorld) (r : AdRtbRequest) : Prop where
  passes : Passes u world.clock r
  tanx : got (tanxAsks descriptions r) (tanxKeys u) = false
  realTime : realTimeKeeps (fun _ => u) world.infos world.second (0, {})

variable {loaded : Loaded} {placed : Allocated} {descriptions : AdMap AdTanxDescription}
  {world : MatchWorld} {r : AdRtbRequest} {a : Nat}

theorem survives_iff (inside : placed ∈ loaded.orders) :
    placed.address ∈ (survivors loaded descriptions world r).map Prod.fst ↔
      Survives placed.unit descriptions world r := by
  have unit := orderAt_address loaded.addresses inside
  have realTime : ∀ v, realTimeKeeps (orderAt loaded.orders) world.infos world.second
      (placed.address, v) =
        realTimeKeeps (fun _ => placed.unit) world.infos world.second (0, {}) := by
    intro v
    rw [realTimeKeeps, realTimeKeeps, execId, execId, unit]
  constructor
  · intro listed
    obtain ⟨⟨b, v⟩, kept, same⟩ := List.mem_map.mp listed
    obtain rfl : b = placed.address := same
    obtain ⟨-, -, passes, tanx, open_⟩ := (mem_survivors _).mp kept
    dsimp only at passes tanx
    rw [unit] at passes tanx
    rw [realTime] at open_
    exact ⟨passes, tanx, open_⟩
  · intro survives
    refine List.mem_map.mpr ⟨(placed.address, ⟨false, maskOf r⟩), (mem_survivors _).mpr ?_, rfl⟩
    refine ⟨List.mem_map_of_mem inside, rfl, ?_, ?_, ?_⟩
    · rw [unit]
      exact survives.passes
    · rw [unit]
      exact survives.tanx
    · rw [realTime]
      exact survives.realTime

variable {marks own found foundOwn : List AdMarkInfo} {looked : List AdUserMark}

/-- A keyword that keeps its order among others keeps it alone: whatever ends the waiting
alone is a keyword of the order that fits. -/
theorem keptFrom_own (only : ∀ info ∈ own, info.data = a)
    (onlyFound : ∀ info ∈ foundOwn, info.data = a)
    (part : ∀ info ∈ marks, info.data = a → info ∈ own)
    (partFound : ∀ info ∈ found, info.data = a → info ∈ foundOwn)
    (kept : KeptFrom marks found looked a) : KeptFrom own foundOwn looked a := by
  induction looked generalizing found foundOwn with
  | nil =>
    obtain ⟨before, mark, after, split, -⟩ := kept
    simp at split
  | cons mark looked ih =>
    have there : ∀ info ∈ found ++ marks.filter fun info => Stands info.key mark.mark,
        info.data = a → info ∈ foundOwn ++ own.filter fun info => Stands info.key mark.mark := by
      intro info inside same
      rcases List.mem_append.mp inside with waits | stands
      · exact List.mem_append_left _ (partFound info waits same)
      · obtain ⟨listed, stands⟩ := List.mem_filter.mp stands
        exact List.mem_append_right _ (List.mem_filter.mpr ⟨part info listed same, stands⟩)
    have mine : ∀ info ∈ foundOwn ++ own.filter fun info => Stands info.key mark.mark,
        info.data = a := by
      intro info inside
      rcases List.mem_append.mp inside with waits | stands
      · exact onlyFound info waits
      · exact only info (List.mem_of_mem_filter stands)
    rw [keptFrom_cons] at kept ⊢
    rcases kept with ⟨info, inside, fits, same⟩ | later
    · exact .inl ⟨info, there info inside same, fits, same⟩
    · by_cases fits : ∃ info ∈ foundOwn ++ own.filter fun info => Stands info.key mark.mark,
          markFits mark info
      · obtain ⟨info, inside, fits⟩ := fits
        exact .inl ⟨info, inside, fits, mine info inside⟩
      · have waits : wait own foundOwn mark =
            foundOwn ++ own.filter fun info => Stands info.key mark.mark := by
          rw [wait]
          exact if_neg fun some' => fits (List.any_eq_true.mp some')
        have fewer : ∀ info ∈ wait marks found mark,
            info ∈ found ++ marks.filter fun info => Stands info.key mark.mark := by
          intro info inside
          rw [wait] at inside
          split at inside
          · exact absurd inside List.not_mem_nil
          · exact inside
        refine .inr (ih ?_ ?_ later)
        · rw [waits]
          exact mine
        · rw [waits]
          exact fun info inside same => there info (fewer info inside) same

/-- Where an order stands that a filed keyword comes from. -/
theorem filed_place (inside : placed ∈ loaded.orders) {info : AdMarkInfo}
    (listed : info ∈ filed loaded.orders) (same : info.data = placed.address) :
    ∃ before after, loaded.orders = before ++ placed :: after ∧ info ∈ keywordsOf placed ∧
      ∀ later ∈ placed :: after, Usable later := by
  obtain ⟨before, other, after, split, keyword, usable⟩ := mem_filed.mp listed
  have among : other ∈ loaded.orders := by
    rw [split]
    exact List.mem_append_right _ List.mem_cons_self
  have address : info.data = other.address := by
    obtain ⟨node, -, rfl⟩ := List.mem_map.mp keyword
    rfl
  obtain rfl : other = placed :=
    List.inj_on_of_nodup_map loaded.addresses among inside (address.symm.trans same)
  exact ⟨before, after, split, keyword, usable⟩

/-- The keywords of an order that are filed among others. -/
theorem filed_own (inside : placed ∈ loaded.orders) {info : AdMarkInfo}
    (listed : info ∈ filed loaded.orders) (same : info.data = placed.address) :
    info ∈ filed [placed] := by
  obtain ⟨before, after, -, keyword, usable⟩ := filed_place inside listed same
  exact mem_filed.mpr ⟨[], placed, [], rfl, keyword, fun later here =>
    usable later (List.mem_singleton.mp here ▸ List.mem_cons_self)⟩

theorem filed_alone : filed [placed] = if Usable placed then keywordsOf placed else [] := by
  rw [filed, List.foldl_cons, List.foldl_nil, List.nil_append]

theorem filed_address {info : AdMarkInfo} (listed : info ∈ filed [placed]) :
    info.data = placed.address := by
  rw [filed_alone] at listed
  split at listed
  · obtain ⟨node, -, rfl⟩ := List.mem_map.mp listed
    rfl
  · exact absurd listed List.not_mem_nil

/-- A keyword order that gets to the last filter makes it search for a long mark in an empty
tree. -/
def Breaks (loaded : Loaded) (descriptions : AdMap AdTanxDescription) (world : MatchWorld)
    (r : AdRtbRequest) : Prop :=
  (∃ other ∈ loaded.orders, other.unit.order.nice = adOrderNice ∧
      Survives other.unit descriptions world r) ∧
    filed loaded.orders = [] ∧ ∃ mark ∈ lookedMarks r world, 512 ≤ mark.mark.length

theorem crashes_iff :
    Crashes loaded r world (survivors loaded descriptions world r) ↔
      Breaks loaded descriptions world r := by
  refine and_congr_left fun _ => ?_
  constructor
  · rintro ⟨a, listed, nice⟩
    obtain ⟨other, inside, rfl⟩ := List.mem_map.mp (Sound.keys_known sound_survivors listed)
    rw [orderAt_address loaded.addresses inside] at nice
    exact ⟨other, inside, nice, (survives_iff inside).mp listed⟩
  · rintro ⟨other, inside, nice, survives⟩
    refine ⟨other.address, (survives_iff inside).mpr survives, ?_⟩
    rw [orderAt_address loaded.addresses inside]
    exact nice

/-- What the last filter wants of an order. -/
def Picked (loaded : Loaded) (placed : Allocated) (r : AdRtbRequest) (world : MatchWorld) : Prop :=
  placed.unit.order.nice = adOrderBase ∨
    placed.unit.order.nice = adOrderNice ∧
      (Meets (filed loaded.orders) (lookedMarks r world) placed.address ∨
        Stale (filed loaded.orders) (lookedMarks r world) placed.address) ∨
    placed.unit.order.nice = adOrderAudience ∧
      ∃ info ∈ joined (ownHits (entriesOf placed) (lookedAudience r world)), audienceFits info

theorem chosen_iff (inside : placed ∈ loaded.orders) :
    Chosen loaded r world placed.address ↔ Picked loaded placed r world := by
  rw [Chosen, Picked, orderAt_address loaded.addresses inside, audienceFits_iff inside]

theorem gets_iff (inside : placed ∈ loaded.orders) :
    Gets loaded descriptions world r placed.address ↔
      Survives placed.unit descriptions world r ∧
        (¬ Looks r world ∧ placed.unit.order.nice = adOrderBase ∨
          Looks r world ∧ ¬ Late r world ∧ ¬ Breaks loaded descriptions world r ∧
            Picked loaded placed r world) := by
  rw [← survives_iff inside, ← chosen_iff inside, ← crashes_iff, Gets]
  by_cases looks : Looks r world
  · by_cases late : Late r world
    · rw [candidates_barren (.inl late)]
      simp [late, looks]
    · obtain ⟨crashed, kept⟩ := candidates_looks loaded descriptions looks late
      by_cases crash : Crashes loaded r world (survivors loaded descriptions world r)
      · rw [crashed crash]
        simp [crash, looks]
      · obtain ⟨got, matched, keys⟩ := kept crash
        rw [matched]
        simp [looks, late, crash, keys]
  · obtain ⟨got, matched, keys⟩ := candidates_blind loaded descriptions looks
    rw [matched]
    simp [looks, keys, orderAt_address loaded.addresses inside]

/-- The keywords of an order fit when it is loaded alone. -/
def Fitting (placed : Allocated) (r : AdRtbRequest) (world : MatchWorld) : Prop :=
  Usable placed ∧ (Meets (keywordsOf placed) (lookedMarks r world) placed.address ∨
    Stale (keywordsOf placed) (lookedMarks r world) placed.address)

/-- The keywords of the order are still filed after the orders that were added later, and one
of them fits a mark that it stands in, or still waits among the others for a mark that it
fits. -/
def Kept (loaded : Loaded) (placed : Allocated) (r : AdRtbRequest) (world : MatchWorld) : Prop :=
  (∀ before after, loaded.orders = before ++ placed :: after → ∀ later ∈ after, Usable later) ∧
    (Meets (keywordsOf placed) (lookedMarks r world) placed.address ∨
      Stale (filed loaded.orders) (lookedMarks r world) placed.address)

theorem not_meets_nil {looked : List AdUserMark} : ¬ Meets [] looked a := by
  rintro ⟨mark, -, info, listed, -⟩
  exact absurd listed List.not_mem_nil

theorem not_stale_nil {looked : List AdUserMark} : ¬ Stale [] looked a := by
  rintro ⟨before, mark, after, -, info, waits, -⟩
  rw [waiting_nil] at waits
  exact absurd waits List.not_mem_nil

theorem fitting_iff : Fitting placed r world ↔
    Meets (filed [placed]) (lookedMarks r world) placed.address ∨
      Stale (filed [placed]) (lookedMarks r world) placed.address := by
  rw [Fitting, filed_alone]
  split
  · next usable => simp [usable]
  · next empty => simp [empty, not_meets_nil, not_stale_nil]

/-- All keywords of an order are filed where none of the later orders has an unusable one, and
otherwise none. -/
theorem filed_kept (inside : placed ∈ loaded.orders) (usable : Usable placed) {info : AdMarkInfo}
    (kept : ∀ before after, loaded.orders = before ++ placed :: after → ∀ later ∈ after,
      Usable later) (listed : info ∈ keywordsOf placed) : info ∈ filed loaded.orders := by
  obtain ⟨before, after, split⟩ := List.append_of_mem inside
  refine mem_filed.mpr ⟨before, placed, after, split, listed, fun later among => ?_⟩
  rcases List.mem_cons.mp among with rfl | among
  · exact usable
  · exact kept before after split later among

/-- An order with a filed keyword is kept. -/
theorem kept_of_filed {info : AdMarkInfo} (inside : placed ∈ loaded.orders)
    (listed : info ∈ filed loaded.orders) (same : info.data = placed.address) :
    ∀ before after, loaded.orders = before ++ placed :: after → ∀ later ∈ after, Usable later := by
  obtain ⟨before, after, split, keyword, usable⟩ := filed_place inside listed same
  intro before' after' split' later here
  have distinct : loaded.orders.Nodup := loaded.addresses.of_map _
  rw [split, List.nodup_middle, List.nodup_cons, List.mem_append, not_or] at distinct
  obtain ⟨-, -, rfl⟩ := (List.append_cons_inj_of_notMem distinct.1.1 distinct.1.2).mp
    (split.symm.trans split')
  exact usable later (.tail _ here)

theorem meets_filed (inside : placed ∈ loaded.orders) (usable : Usable placed)
    (kept : ∀ before after, loaded.orders = before ++ placed :: after → ∀ later ∈ after,
      Usable later) {looked : List AdUserMark} :
    Meets (filed loaded.orders) looked placed.address ↔
      Meets (keywordsOf placed) looked placed.address := by
  constructor
  · rintro ⟨mark, among, info, listed, stands, fits, same⟩
    have own := filed_own inside listed same
    rw [filed_alone, if_pos usable] at own
    exact ⟨mark, among, info, own, stands, fits, same⟩
  · rintro ⟨mark, among, info, listed, stands, fits, same⟩
    exact ⟨mark, among, info, filed_kept inside usable kept listed, stands, fits, same⟩

/-- What waits is filed. -/
theorem waiting_filed {looked : List AdUserMark} {info : AdMarkInfo}
    (waits : info ∈ waiting marks looked) : info ∈ marks := by
  have step : ∀ (looked : List AdUserMark) (found : List AdMarkInfo),
      (∀ info ∈ found, info ∈ marks) → ∀ info ∈ looked.foldl (wait marks) found, info ∈ marks := by
    intro looked
    induction looked with
    | nil => exact fun _ inside => inside
    | cons mark looked ih =>
      intro found inside
      refine ih _ fun info waits => ?_
      rw [wait] at waits
      split at waits
      · exact absurd waits List.not_mem_nil
      · rcases List.mem_append.mp waits with old | new
        · exact inside info old
        · exact List.mem_of_mem_filter new
  exact step looked [] (fun _ none => absurd none List.not_mem_nil) info waits

/-- The keywords of an order that fit among others are those that fit alone and are kept. -/
theorem picked_keywords (inside : placed ∈ loaded.orders) :
    Meets (filed loaded.orders) (lookedMarks r world) placed.address ∨
        Stale (filed loaded.orders) (lookedMarks r world) placed.address ↔
      Fitting placed r world ∧ Kept loaded placed r world := by
  constructor
  · intro picked
    have some' : ∃ info ∈ filed loaded.orders, info.data = placed.address := by
      rcases picked with ⟨_, _, info, listed, _, _, same⟩ | ⟨_, _, _, _, info, waits, _, same⟩
      · exact ⟨info, listed, same⟩
      · exact ⟨info, waiting_filed waits, same⟩
    obtain ⟨info, listed, same⟩ := some'
    have kept := kept_of_filed inside listed same
    have usable : Usable placed := by
      have own := filed_own inside listed same
      rw [filed_alone] at own
      split at own
      · next usable => exact usable
      · exact absurd own List.not_mem_nil
    refine ⟨fitting_iff.mpr ?_, kept, ?_⟩
    · rw [← keptFrom_nil]
      refine keptFrom_own (fun _ => filed_address) (fun _ none => absurd none List.not_mem_nil)
        (fun _ => filed_own inside) (fun _ none => absurd none List.not_mem_nil)
        ((keptFrom_nil _ _).mpr picked)
    · rcases picked with meets | stale
      · exact .inl ((meets_filed inside usable kept).mp meets)
      · exact .inr stale
  · rintro ⟨⟨usable, -⟩, kept, meets | stale⟩
    · exact .inl ((meets_filed inside usable kept).mpr meets)
    · exact .inr stale

/-- Among others an order keeps what it gets alone: nothing crashes because of an order loaded
with it, and its keywords are kept. -/
def Undisturbed (loaded : Loaded) (descriptions : AdMap AdTanxDescription) (world : MatchWorld)
    (r : AdRtbRequest) (placed : Allocated) : Prop :=
  Survives placed.unit descriptions world r → Looks r world → ¬ Late r world →
    (placed.unit.order.nice = adOrderBase → ¬ Breaks loaded descriptions world r) ∧
    (placed.unit.order.nice = adOrderNice → Fitting placed r world → Kept loaded placed r world) ∧
    (placed.unit.order.nice = adOrderAudience →
      (∃ info ∈ joined (ownHits (entriesOf placed) (lookedAudience r world)), audienceFits info) →
      ¬ Breaks loaded descriptions world r)

theorem kept_alone (fitting : Fitting placed r world) : Kept (alone placed) placed r world := by
  constructor
  · intro before after split later among
    have length := congrArg List.length split
    rw [List.length_append, List.length_cons] at length
    change 1 = _ at length
    obtain rfl : after = [] := List.length_eq_zero_iff.mp (by omega)
    exact absurd among List.not_mem_nil
  · change _ ∨ Stale (filed [placed]) _ _
    rw [filed_alone, if_pos fitting.1]
    exact fitting.2

/-- A crash leaves no keyword that fits. -/
theorem breaks_unpicked (inside : placed ∈ loaded.orders)
    (breaks : Breaks loaded descriptions world r) :
    ¬ (Fitting placed r world ∧ Kept loaded placed r world) := by
  rw [← picked_keywords inside, breaks.2.1]
  rintro (meets | stale)
  · exact not_meets_nil meets
  · exact not_stale_nil stale

/-- An order is matched among others as alone exactly when it is undisturbed. -/
theorem alike_iff (inside : placed ∈ loaded.orders) :
    (Gets loaded descriptions world r placed.address ↔
        Gets (alone placed) descriptions world r placed.address) ↔
      Undisturbed loaded descriptions world r placed := by
  have kinds : adOrderNice ≠ adOrderBase ∧ adOrderAudience ≠ adOrderBase ∧
      adOrderAudience ≠ adOrderNice := by decide
  have single : placed ∈ (alone placed).orders := List.mem_singleton_self _
  have breaksNice : Breaks (alone placed) descriptions world r →
      placed.unit.order.nice = adOrderNice := by
    rintro ⟨⟨other, among, nice, -⟩, -⟩
    rwa [List.mem_singleton.mp among] at nice
  have unpicked : Breaks loaded descriptions world r →
      ¬ (Fitting placed r world ∧ Kept loaded placed r world) := breaks_unpicked inside
  have unpicked' : Breaks (alone placed) descriptions world r →
      ¬ (Fitting placed r world ∧ Kept (alone placed) placed r world) := breaks_unpicked single
  have keptAlone : Fitting placed r world → Kept (alone placed) placed r world := kept_alone
  rw [gets_iff inside, gets_iff single, Picked, Picked, picked_keywords inside,
    picked_keywords single, Undisturbed]
  generalize Breaks loaded descriptions world r = breaks at *
  generalize Breaks (alone placed) descriptions world r = breaks' at *
  generalize Kept loaded placed r world = kept at *
  generalize Kept (alone placed) placed r world = kept' at *
  generalize Fitting placed r world = fitting at *
  generalize (∃ info ∈ joined (ownHits (entriesOf placed) (lookedAudience r world)),
    audienceFits info = true) = heard
  generalize placed.unit.order.nice = kind at *
  by_cases survives : Survives placed.unit descriptions world r
  · by_cases looks : Looks r world
    · by_cases late : Late r world
      · simp [late, looks]
      · simp only [survives, looks, late, true_and, not_true_eq_false, not_false_eq_true, false_and,
          false_or, true_implies]
        by_cases base : kind = adOrderBase
        · have quiet : ¬ breaks' := fun breaks =>
            kinds.1 ((breaksNice breaks).symm.trans base)
          simp [base, kinds.1.symm, kinds.2.1.symm, quiet]
        · by_cases nice : kind = adOrderNice
          · by_cases fits : fitting
            · have there := keptAlone fits
              have quiet : ¬ breaks' := fun breaks => unpicked' breaks ⟨fits, there⟩
              have loud : kept → ¬ breaks := fun held breaks => unpicked breaks ⟨fits, held⟩
              simp only [nice, kinds.1, kinds.2.2.symm, fits, there, quiet, false_or, or_false,
                true_and, false_and, and_true, true_implies, false_implies, not_false_eq_true,
                iff_true]
              exact and_iff_right_of_imp loud
            · simp [nice, kinds.1, kinds.2.2.symm, fits]
          · have quiet : ¬ breaks' := fun breaks => nice (breaksNice breaks)
            simp only [base, nice, quiet, false_or, false_and, false_implies, true_and,
              not_false_eq_true]
            constructor
            · intro same audience fits
              exact (same.mpr ⟨audience, fits⟩).1
            · intro whole
              exact and_iff_right_of_imp fun both => whole both.1 both.2
    · simp [looks]
  · simp [survives]

/-- A keyword order for exchange 1. -/
def keywordOrder (id : UInt32) (keyword : String) : AdPlanningUnit where
  order := { executeId := id, nice := adOrderNice }
  time := { push := true, day := [⟨1, 0, 0xffffff⟩] }
  area := [adAreaAll]
  pidInfo := [⟨1, adPidModeAll, []⟩]
  creativeInfo := (∅ : TreeMap UInt32 AdCreativeInfo).insert 1
    ⟨ascii "g1", ascii "1", [{ width := 300, height := 250 }]⟩
  keyWord := [⟨adKeysDimCus, ascii keyword⟩]

def pair (first second : String) : Loaded where
  orders := [⟨0, keywordOrder 7 first⟩, ⟨1, keywordOrder 8 second⟩]
  addresses := by simp
  execIds := by simp [keywordOrder]

def bannerRequest : AdRtbRequest :=
  { AdRtbRequest.clear ⟨0, 0⟩ with
    adx := 1
    text := fun text => if text = .size then ascii "300x250" else [] }

/-- A user with one mark, on a Monday morning. -/
def userWith (mark : String) : MatchWorld where
  clock := ⟨1, 10⟩
  second := 0
  now := ⟨0, 0⟩
  infos _ := none
  user _ := some { marks := [⟨ascii mark, 1, 0⟩] }

/-- A keyword next to a usable one is matched as alone. -/
theorem usable_pair_alike :
    Gets (pair "ab" "cd") [] (userWith "ab") bannerRequest 0 ↔
      Gets (alone ⟨0, keywordOrder 7 "ab"⟩) [] (userWith "ab") bannerRequest 0 := by
  have inside : (⟨0, keywordOrder 7 "ab"⟩ : Allocated) ∈ (pair "ab" "cd").orders := .head _
  refine (alike_iff inside).mpr fun _ _ _ => ⟨fun base => ?_, fun _ _ => ⟨?_, .inl ?_⟩,
    fun audience => ?_⟩
  · exact absurd base (by decide)
  · intro before after split later among
    have usable : ∀ placed ∈ (pair "ab" "cd").orders, Usable placed := by decide
    refine usable later ?_
    rw [split]
    exact List.mem_append_right _ (.tail _ among)
  · exact ⟨⟨ascii "ab", 1, 0⟩, .head _, ⟨adKeysDimCus, ascii "ab", 0⟩, .head _, by decide,
      by decide,
      rfl⟩
  · exact absurd audience (by decide)

/-- An order whose keyword is a star takes the keyword of the order loaded before it away. -/
theorem star_takes_keyword :
    ¬ ∀ (loaded : Loaded) (placed : Allocated) (descriptions : AdMap AdTanxDescription)
      (world : MatchWorld) (r : AdRtbRequest), placed ∈ loaded.orders →
      (Gets loaded descriptions world r placed.address ↔
        Gets (alone placed) descriptions world r placed.address) := by
  intro all
  have same := all (pair "ab" "*") ⟨0, keywordOrder 7 "ab"⟩ [] (userWith "ab") bannerRequest
    (.head _)
  have here : candidates (alone ⟨0, keywordOrder 7 "ab"⟩) [] (userWith "ab") bannerRequest =
      some [0] := by
    decide
  have gone : candidates (pair "ab" "*") [] (userWith "ab") bannerRequest = some [] := by
    decide
  obtain ⟨got, matched, listed⟩ := same.mpr ⟨[0], here, .head _⟩
  rw [gone] at matched
  obtain rfl := Option.some.inj matched
  exact absurd listed List.not_mem_nil

end OrderInterference
