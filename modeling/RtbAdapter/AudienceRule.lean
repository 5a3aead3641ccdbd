import RtbAdapter.AudienceTable

/-!
# The rule for audiences

An audience order is wanted when one of its nodes is satisfied: by all its tags when
the tags are merged with "and", by one of them when they are merged with "or". The
filter goes by the tags that are hit, one of the first 32 of their kind by a longer
mark, and keeps one record for all nodes, which ends up with the type and the masks
of the node that was hit last.
-/

namespace AudienceRule

open ByteWords CText PlanningUnit RtbBase FilterTables FilterMark RtbFilters FilterReferences
open FilterResults LoadedOrders MatchedOrders KeywordMatch LastFilter AudienceTable Std

inductive TagKind where
  | search | visit | unVisit
  deriving DecidableEq

/-- The tags of one kind. -/
def tags (node : AdAudienceNode) : TagKind → TreeMap Bytes UInt32
  | .search => node.search
  | .visit => node.visit
  | .unVisit => node.unVisit

/-- A tag that is filed, with its place among those of its kind. -/
structure Tag where
  node : AdAudienceNode
  kind : TagKind
  place : Nat
  key : Bytes
  time : UInt32

/-- The tags of a node that are filed. -/
def tagsOf (node : AdAudienceNode) : List Tag :=
  [TagKind.search, .visit, .unVisit].flatMap fun kind =>
    ((tags node kind).toList.take 32).zipIdx.map fun mark =>
      ⟨node, kind, mark.2, mark.1.1, mark.1.2⟩

namespace Tag

def bit (kind : TagKind) (tag : Tag) : UInt32 :=
  if tag.kind = kind then 1 <<< UInt32.ofNat tag.place else 0

def info (address : Nat) (tag : Tag) : AdAudienceInfo where
  type := tag.node.type
  effectiveTime := tag.time
  visitMask := markMask tag.node.visit
  visitMatch := tag.bit .visit
  unVisitMask := markMask tag.node.unVisit
  unVisitMatch := tag.bit .unVisit
  searchMask := markMask tag.node.search
  searchMatch := tag.bit .search
  data := address

end Tag

/-- The tags that are hit, in the order in which they are joined. -/
def hitTags (filed : List Tag) (marks : List AdUserMark) : List Tag :=
  marks.flatMap fun mark => (List.range mark.mark.length).flatMap fun n =>
    filed.filter fun tag => tag.key = mark.mark.take n ∧ mark.time ≤ tag.time

/-- A tag meets a mark that it begins, when the mark is not too old. -/
def Met (marks : List AdUserMark) (key : Bytes) (time : UInt32) : Prop :=
  ∃ mark ∈ marks, key <+: mark.mark ∧ mark.time ≤ time

/-- A tag hits a mark that it begins and that is longer. -/
def Hit (marks : List AdUserMark) (key : Bytes) (time : UInt32) : Prop :=
  ∃ mark ∈ marks, key <+: mark.mark ∧ key ≠ mark.mark ∧ mark.time ≤ time

/-- All tags to be searched or visited are met and none of the others, or one of them is. -/
def Satisfied (node : AdAudienceNode) (marks : List AdUserMark) : Prop :=
  node.type = adAudienceMergeAnd ∧
      (∀ tag ∈ node.search.toList ++ node.visit.toList, Met marks tag.1 tag.2) ∧
      (∀ tag ∈ node.unVisit.toList, ¬ Met marks tag.1 tag.2) ∨
    node.type = adAudienceMergeOr ∧
      ∃ tag ∈ node.search.toList ++ node.visit.toList, Met marks tag.1 tag.2

variable {marks : List AdUserMark} {node : AdAudienceNode} {filed hits : List Tag} {a : Nat}

theorem audienceEntries_eq (node : AdAudienceNode) :
    audienceEntries a node = (tagsOf node).map fun tag => (tag.key, tag.info a) := by
  simp only [audienceEntries, tagsOf, List.flatMap_cons, List.flatMap_nil, List.append_nil,
    List.map_append, List.map_map, List.append_assoc]
  rfl

theorem ownHits_eq (filed : List Tag) (marks : List AdUserMark) :
    ownHits (filed.map fun tag => (tag.key, tag.info a)) marks =
      (hitTags filed marks).map (Tag.info a) := by
  rw [ownHits, hitTags, List.map_flatMap]
  congr 1
  funext mark
  rw [List.map_flatMap]
  congr 1
  funext n
  rw [AdMap.find, List.filter_map, List.filter_map, List.filter_map, List.map_map,
    List.filter_filter]
  refine congrArg _ (List.filter_congr fun tag _ => ?_)
  simp [Tag.info, Bool.and_comm]

theorem mem_hitTags {tag : Tag} :
    tag ∈ hitTags filed marks ↔ tag ∈ filed ∧ Hit marks tag.key tag.time := by
  simp only [hitTags, List.mem_flatMap, List.mem_filter, List.mem_range, decide_eq_true_eq, Hit]
  constructor
  · rintro ⟨mark, among, n, short, listed, key, time⟩
    refine ⟨listed, mark, among, key ▸ List.take_prefix n _, ?_, time⟩
    intro whole
    have length := congrArg List.length (whole.symm.trans key)
    rw [List.length_take] at length
    omega
  · rintro ⟨listed, mark, among, begins, longer, time⟩
    refine ⟨mark, among, tag.key.length, ?_, listed, List.prefix_iff_eq_take.mp begins, time⟩
    exact Nat.lt_of_le_of_ne begins.length_le fun same => longer (begins.eq_of_length same)

/-- The tags of a node that are filed are the first 32 of each kind. -/
theorem mem_tagsOf {tag : Tag} :
    tag ∈ tagsOf node ↔ tag.node = node ∧ tag.place < 32 ∧
      (tags node tag.kind).toList[tag.place]? = some (tag.key, tag.time) := by
  have kinds : ∀ kind : TagKind, kind ∈ [TagKind.search, .visit, .unVisit] := by
    intro kind
    cases kind <;> decide
  simp only [tagsOf, List.mem_flatMap, List.mem_map]
  constructor
  · rintro ⟨kind, -, ⟨mark, place⟩, inside, rfl⟩
    have found := List.mem_zipIdx_iff_getElem?.mp inside
    rw [List.getElem?_take] at found
    split at found
    · next small => exact ⟨rfl, small, found⟩
    · exact nomatch found
  · rintro ⟨rfl, small, found⟩
    refine ⟨tag.kind, kinds _, ((tag.key, tag.time), tag.place), ?_, rfl⟩
    rw [List.mem_zipIdx_iff_getElem?, List.getElem?_take, if_pos small]
    exact found

theorem testBit_markMask (marks : TreeMap Bytes UInt32) (k : Nat) :
    (markMask marks).toNat.testBit k ↔ k < 32 ∧ k < marks.size := by
  rw [markMask, testBit_foldl]
  constructor
  · rintro (zero | ⟨i, listed, set⟩)
    · simp at zero
    · rw [List.mem_range] at listed
      rw [testBit_one (by omega)] at set
      omega
  · rintro ⟨small, inside⟩
    exact .inr ⟨k, List.mem_range.mpr (by omega), (testBit_one small k).mpr rfl⟩

/-- The bits of the tags of a kind. -/
def matchOf (kind : TagKind) (hits : List Tag) : UInt32 :=
  hits.foldl (fun mask tag => mask ||| tag.bit kind) 0

theorem testBit_matchOf (kind : TagKind) (places : ∀ tag ∈ hits, tag.place < 32) (k : Nat) :
    (matchOf kind hits).toNat.testBit k ↔ ∃ tag ∈ hits, tag.kind = kind ∧ tag.place = k := by
  rw [matchOf, testBit_foldl]
  have none : ¬ (0 : UInt32).toNat.testBit k := by simp
  rw [or_iff_right none]
  refine exists_congr fun tag => and_congr_right fun inside => ?_
  rw [Tag.bit]
  split
  · next same => rw [testBit_one (places tag inside), and_iff_right same]
  · next other => simp [other]

theorem eq_iff_testBit {m n : UInt32} :
    m = n ↔ ∀ k, m.toNat.testBit k ↔ n.toNat.testBit k := by
  constructor
  · rintro rfl k
    exact Iff.rfl
  · intro same
    exact UInt32.toNat_inj.mp (Nat.eq_of_testBit_eq fun k => Bool.eq_iff_iff.mpr (same k))

/-- The record that is kept for some tags. -/
def recordOf (a : Nat) (time : UInt32) (hits : List Tag) (last : Tag) : AdAudienceInfo :=
  { last.info a with
    effectiveTime := time
    searchMatch := matchOf .search hits
    visitMatch := matchOf .visit hits
    unVisitMatch := matchOf .unVisit hits }

theorem matchOf_append (kind : TagKind) (hits : List Tag) (tag : Tag) :
    matchOf kind (hits ++ [tag]) = matchOf kind hits ||| tag.bit kind := by
  rw [matchOf, List.foldl_append]
  rfl

/-- All hits of an order are joined in one record, with the type and masks of the last. -/
theorem joined_hits (hits : List Tag) (last : Tag) :
    ∃ time,
      joined ((hits ++ [last]).map (Tag.info a)) = [recordOf a time (hits ++ [last]) last] := by
  induction hits using List.reverseRecOn generalizing last with
  | nil =>
    refine ⟨last.time, ?_⟩
    simp [joined, mergeAudience, recordOf, matchOf, Tag.info]
  | append_singleton hits before ih =>
    obtain ⟨time, kept⟩ := ih before
    refine ⟨time, ?_⟩
    have step : joined ((hits ++ [before] ++ [last]).map (Tag.info a)) =
        mergeAudience (last.info a) (joined ((hits ++ [before]).map (Tag.info a))) := by
      rw [joined, List.map_append, List.foldl_append]
      rfl
    have own : (recordOf a time (hits ++ [before]) before).data = (last.info a).data := rfl
    rw [step, kept, mergeAudience, if_pos own]
    simp only [recordOf, matchOf_append _ (hits ++ [before]) last]
    rfl

/-- Every place of the node is hit in its search and visit tags, no other place is, and no
unvisit tag is hit at all. -/
structure Complete (node : AdAudienceNode) (hits : List Tag) : Prop where
  search : ∀ k, k < 32 ∧ k < node.search.size ↔ ∃ tag ∈ hits, tag.kind = .search ∧ tag.place = k
  visit : ∀ k, k < 32 ∧ k < node.visit.size ↔ ∃ tag ∈ hits, tag.kind = .visit ∧ tag.place = k
  unVisit : ∀ tag ∈ hits, tag.kind ≠ .unVisit

theorem fits_recordOf {time : UInt32} {last : Tag} (places : ∀ tag ∈ hits, tag.place < 32) :
    audienceFits (recordOf a time hits last) ↔
      last.node.type = adAudienceMergeAnd ∧ Complete last.node hits ∨
        last.node.type = adAudienceMergeOr := by
  have apart : adAudienceMergeAnd ≠ adAudienceMergeOr := by decide
  have full : ∀ kind, markMask (tags last.node kind) = matchOf kind hits ↔
      ∀ k, k < 32 ∧ k < (tags last.node kind).size ↔
        ∃ tag ∈ hits, tag.kind = kind ∧ tag.place = k := by
    intro kind
    rw [eq_iff_testBit]
    refine forall_congr' fun k => ?_
    rw [testBit_markMask, testBit_matchOf kind places]
  have unhit : matchOf .unVisit hits = 0 ↔ ∀ tag ∈ hits, tag.kind ≠ .unVisit := by
    rw [eq_iff_testBit]
    constructor
    · intro same tag inside kind
      have set := (same tag.place).mp
        ((testBit_matchOf .unVisit places _).mpr ⟨tag, inside, kind, rfl⟩)
      simp at set
    · intro none k
      rw [testBit_matchOf .unVisit places]
      constructor
      · rintro ⟨tag, inside, kind, -⟩
        exact absurd kind (none tag inside)
      · intro set
        simp at set
  rw [audienceFits]
  change (if last.node.type = adAudienceMergeAnd then
      decide (markMask (tags last.node .search) = matchOf .search hits) &&
        decide (markMask (tags last.node .visit) = matchOf .visit hits) &&
        decide (matchOf .unVisit hits = 0)
    else if last.node.type = adAudienceMergeOr then
      decide (matchOf .search hits ≠ 0) || decide (matchOf .unVisit hits ≠ 0) ||
        decide (matchOf .unVisit hits = 0)
    else false) = true ↔ _
  split
  · next and_ =>
    rw [Bool.and_eq_true, Bool.and_eq_true, decide_eq_true_eq, decide_eq_true_eq,
      decide_eq_true_eq, full, full, unhit, and_]
    constructor
    · rintro ⟨⟨search, visit⟩, unVisit⟩
      exact .inl ⟨rfl, search, visit, unVisit⟩
    · rintro (⟨-, complete⟩ | other)
      · exact ⟨⟨complete.search, complete.visit⟩, complete.unVisit⟩
      · exact absurd other apart
  split
  · next or_ =>
    rw [or_]
    refine iff_of_true ?_ (.inr rfl)
    by_cases none : matchOf .unVisit hits = 0 <;> simp [none]
  · next neither or_ => simp [neither, or_]

variable {loaded : Loaded} {placed : Allocated} {ready result : AdResult}

/-- The tags of an order that are filed: none, when it has an unusable keyword. -/
def filedTags (placed : Allocated) : List Tag :=
  if Usable placed then placed.unit.audience.flatMap tagsOf else []

/-- Some node of the order is satisfied. -/
def Wanted (placed : Allocated) (marks : List AdUserMark) : Prop :=
  ∃ node ∈ placed.unit.audience, Satisfied node marks

theorem entriesOf_eq (placed : Allocated) :
    entriesOf placed = (filedTags placed).map fun tag => (tag.key, tag.info placed.address) := by
  rw [entriesOf, filedTags]
  split
  · rw [List.map_flatMap]
    exact List.flatMap_congr fun node _ => audienceEntries_eq node
  · rfl

theorem mem_filedTags {tag : Tag} (listed : tag ∈ filedTags placed) :
    tag.node ∈ placed.unit.audience ∧ tag ∈ tagsOf tag.node := by
  rw [filedTags] at listed
  split at listed
  · obtain ⟨node, among, listed⟩ := List.mem_flatMap.mp listed
    obtain rfl := (mem_tagsOf.mp listed).1
    exact ⟨among, listed⟩
  · exact absurd listed List.not_mem_nil

/-- The order is kept when the node of its last hit is merged with "or", or is merged with
"and" and complete. -/
theorem audienceFits_hits (inside : placed ∈ loaded.orders) :
    AudienceFits loaded marks placed.address ↔
      ∃ last ∈ (hitTags (filedTags placed) marks).getLast?,
        last.node.type = adAudienceMergeAnd ∧
            Complete last.node (hitTags (filedTags placed) marks) ∨
          last.node.type = adAudienceMergeOr := by
  have places : ∀ tag ∈ hitTags (filedTags placed) marks, tag.place < 32 :=
    fun tag hit => (mem_tagsOf.mp (mem_filedTags (mem_hitTags.mp hit).1).2).2.1
  rw [audienceFits_iff inside, entriesOf_eq, ownHits_eq]
  generalize hitTags (filedTags placed) marks = hits at places ⊢
  induction hits using List.reverseRecOn with
  | nil => simp [joined]
  | append_singleton hits last _ =>
    obtain ⟨time, kept⟩ := joined_hits (a := placed.address) hits last
    rw [kept, List.getLast?_concat]
    simp only [List.mem_singleton, exists_eq_left, Option.mem_def, Option.some.injEq,
      fits_recordOf places, exists_eq_left']

/-- The filter keeps the order exactly when it is wanted. -/
def Exact (loaded : Loaded) (placed : Allocated) (marks : List AdUserMark)
    (ready result : AdResult) : Prop :=
  placed.address ∈ (matchAudience (orderAt loaded.orders) (markFilter loaded) marks ready
      result).map Prod.fst ↔ Wanted placed marks

/-- The order is wanted when the last hit tells so, and only then. It tells so when it is a
tag to be searched or visited of a node merged with "or", which is right, but also when it is
an unvisit tag of such a node, or a tag of a node merged with "and" that is complete. -/
structure Straight (placed : Allocated) (marks : List AdUserMark) : Prop where
  unhit : hitTags (filedTags placed) marks = [] → ¬ Wanted placed marks
  unvisited : ∀ last ∈ (hitTags (filedTags placed) marks).getLast?,
    last.node.type = adAudienceMergeOr → last.kind = .unVisit → Wanted placed marks
  complete : ∀ last ∈ (hitTags (filedTags placed) marks).getLast?,
    last.node.type = adAudienceMergeAnd →
      Complete last.node (hitTags (filedTags placed) marks) → Wanted placed marks
  incomplete : ∀ last ∈ (hitTags (filedTags placed) marks).getLast?,
    last.node.type = adAudienceMergeAnd →
      ¬ Complete last.node (hitTags (filedTags placed) marks) → ¬ Wanted placed marks
  other : ∀ last ∈ (hitTags (filedTags placed) marks).getLast?,
    last.node.type ≠ adAudienceMergeAnd → last.node.type ≠ adAudienceMergeOr →
      ¬ Wanted placed marks

theorem Hit.met {key : Bytes} {time : UInt32} (hit : Hit marks key time) : Met marks key time := by
  obtain ⟨mark, among, begins, -, fresh⟩ := hit
  exact ⟨mark, among, begins, fresh⟩

/-- A hit tag to be searched or visited satisfies a node merged with "or". -/
theorem wanted_of_hit {tag : Tag} (hit : tag ∈ hitTags (filedTags placed) marks)
    (or_ : tag.node.type = adAudienceMergeOr) (kind : tag.kind ≠ .unVisit) :
    Wanted placed marks := by
  obtain ⟨filed, met⟩ := mem_hitTags.mp hit
  obtain ⟨among, listed⟩ := mem_filedTags filed
  have there := List.mem_of_getElem? (mem_tagsOf.mp listed).2.2
  refine ⟨tag.node, among, .inr ⟨or_, (tag.key, tag.time), List.mem_append.mpr ?_, met.met⟩⟩
  cases sort : tag.kind with
  | search =>
    rw [sort] at there
    exact .inl there
  | visit =>
    rw [sort] at there
    exact .inr there
  | unVisit => exact absurd sort kind

theorem audience_exact_iff (inside : placed ∈ loaded.orders) (waits : Sound loaded ready)
    (sound : Sound loaded result) (listed : placed.address ∈ ready.map Prod.fst)
    (new : placed.address ∉ result.map Prod.fst) :
    Exact loaded placed marks ready result ↔ Straight placed marks := by
  have apart : adAudienceMergeAnd ≠ adAudienceMergeOr := by decide
  have kept : placed.address ∈ (matchAudience (orderAt loaded.orders) (markFilter loaded) marks
      ready result).map Prod.fst ↔ AudienceFits loaded marks placed.address := by
    rw [matchAudience_keys sound waits, or_iff_right new, and_iff_right listed]
  rw [Exact, kept, audienceFits_hits inside]
  constructor
  · intro exact_
    refine ⟨fun none wanted => ?_, fun last hit or_ _ => exact_.mp ⟨last, hit, .inr or_⟩,
      fun last hit and_ complete => exact_.mp ⟨last, hit, .inl ⟨and_, complete⟩⟩,
      fun last hit and_ partial_ wanted => ?_, fun last hit neither or_ wanted => ?_⟩
    · obtain ⟨last, hit, -⟩ := exact_.mpr wanted
      rw [none] at hit
      exact nomatch hit
    · obtain ⟨other, hit', fits⟩ := exact_.mpr wanted
      obtain rfl := Option.mem_unique hit hit'
      rcases fits with ⟨-, complete⟩ | or_
      · exact partial_ complete
      · exact apart (and_.symm.trans or_)
    · obtain ⟨other, hit', fits⟩ := exact_.mpr wanted
      obtain rfl := Option.mem_unique hit hit'
      rcases fits with ⟨and_, -⟩ | or'
      · exact neither and_
      · exact or_ or'
  · intro straight
    constructor
    · rintro ⟨last, hit, ⟨and_, complete⟩ | or_⟩
      · exact straight.complete last hit and_ complete
      · by_cases kind : last.kind = .unVisit
        · exact straight.unvisited last hit or_ kind
        · exact wanted_of_hit (List.mem_of_getLast? hit) or_ kind
    · intro wanted
      cases found : (hitTags (filedTags placed) marks).getLast? with
      | none => exact absurd wanted (straight.unhit (List.getLast?_eq_none_iff.mp found))
      | some last =>
        refine ⟨last, rfl, ?_⟩
        by_cases and_ : last.node.type = adAudienceMergeAnd
        · refine .inl ⟨and_, ?_⟩
          by_contra partial_
          exact straight.incomplete last found and_ partial_ wanted
        · by_cases or_ : last.node.type = adAudienceMergeOr
          · exact .inr or_
          · exact absurd wanted (straight.other last found and_ or_)

/-- A node of which a tag meets a mark. -/
def Touched (marks : List AdUserMark) (node : AdAudienceNode) : Prop :=
  ∃ kind, ∃ tag ∈ (tags node kind).toList, Met marks tag.1 tag.2

/-- An order whose nodes are looked at one by one. A tag that meets a mark is one of the first 32
of its kind and meets a longer one as well; a node merged with "and" has no more tags than that,
some of them to be searched or visited when no other speaks against it, and is touched alone; and
where a node merged with "or" is touched, so are only others of that type, and in a tag to be
searched or visited. -/
structure Plain (placed : Allocated) (marks : List AdUserMark) : Prop where
  heard : ∀ node ∈ placed.unit.audience, ∀ kind k, ∀ tag ∈ (tags node kind).toList[k]?,
    Met marks tag.1 tag.2 → Usable placed ∧ k < 32 ∧ Hit marks tag.1 tag.2
  few : ∀ node ∈ placed.unit.audience, node.type = adAudienceMergeAnd →
    node.search.size ≤ 32 ∧ node.visit.size ≤ 32
  bound : ∀ node ∈ placed.unit.audience, node.type = adAudienceMergeAnd →
    node.search.toList ++ node.visit.toList = [] →
      ∃ tag ∈ node.unVisit.toList, Met marks tag.1 tag.2
  alone : ∀ node ∈ placed.unit.audience, ∀ other ∈ placed.unit.audience, Touched marks node →
    Touched marks other → node.type = adAudienceMergeAnd → other = node
  alike : ∀ node ∈ placed.unit.audience, ∀ other ∈ placed.unit.audience, Touched marks node →
    Touched marks other → node.type = adAudienceMergeOr → other.type = adAudienceMergeOr
  sought : ∀ node ∈ placed.unit.audience, Touched marks node → node.type = adAudienceMergeOr →
    ∃ other ∈ placed.unit.audience, other.type = adAudienceMergeOr ∧
      ∃ tag ∈ other.search.toList ++ other.visit.toList, Met marks tag.1 tag.2

theorem touched_of_hit {tag : Tag} (hit : tag ∈ hitTags (filedTags placed) marks) :
    tag.node ∈ placed.unit.audience ∧ Touched marks tag.node := by
  obtain ⟨filed, met⟩ := mem_hitTags.mp hit
  obtain ⟨among, listed⟩ := mem_filedTags filed
  exact ⟨among, tag.kind, _, List.mem_of_getElem? (mem_tagsOf.mp listed).2.2, met.met⟩

namespace Plain

variable (plain : Plain placed marks) (among : node ∈ placed.unit.audience)

include plain among

theorem hit {kind : TagKind} {k : Nat} {key : Bytes} {time : UInt32}
    (found : (tags node kind).toList[k]? = some (key, time)) (met : Met marks key time) :
    ⟨node, kind, k, key, time⟩ ∈ hitTags (filedTags placed) marks := by
  obtain ⟨usable, small, longer⟩ := plain.heard node among kind k _ found met
  refine mem_hitTags.mpr ⟨?_, longer⟩
  rw [filedTags, if_pos usable]
  exact List.mem_flatMap.mpr ⟨node, among, mem_tagsOf.mpr ⟨rfl, small, found⟩⟩

theorem hit_of_mem (kind : TagKind) {tag : Bytes × UInt32}
    (listed : tag ∈ (tags node kind).toList) (met : Met marks tag.1 tag.2) :
    ∃ k, ⟨node, kind, k, tag.1, tag.2⟩ ∈ hitTags (filedTags placed) marks := by
  obtain ⟨k, found⟩ := List.getElem?_of_mem listed
  exact ⟨k, plain.hit among found met⟩

/-- A satisfied node is touched. -/
theorem touched_of_satisfied (satisfied : Satisfied node marks) : Touched marks node := by
  have sought : ∃ tag ∈ node.search.toList ++ node.visit.toList, Met marks tag.1 tag.2 := by
    rcases satisfied with ⟨and_, all, avoided⟩ | ⟨-, some'⟩
    · by_cases none : node.search.toList ++ node.visit.toList = []
      · obtain ⟨tag, listed, met⟩ := plain.bound node among and_ none
        exact absurd met (avoided tag listed)
      · obtain ⟨tag, listed⟩ := List.exists_mem_of_ne_nil _ none
        exact ⟨tag, listed, all tag listed⟩
    · exact some'
  obtain ⟨tag, listed, met⟩ := sought
  rcases List.mem_append.mp listed with search | visit
  · exact ⟨.search, tag, search, met⟩
  · exact ⟨.visit, tag, visit, met⟩

omit plain among in
/-- A hit is in a tag of the node, when only the node is hit. -/
theorem hit_place (own : ∀ tag ∈ hitTags (filedTags placed) marks, tag.node = node) {tag : Tag}
    (hit : tag ∈ hitTags (filedTags placed) marks) :
    tag.place < 32 ∧ (tags node tag.kind).toList[tag.place]? = some (tag.key, tag.time) ∧
      Met marks tag.key tag.time := by
  obtain ⟨filed, met⟩ := mem_hitTags.mp hit
  obtain ⟨-, small, found⟩ := mem_tagsOf.mp (mem_filedTags filed).2
  rw [own tag hit] at found
  exact ⟨small, found, met.met⟩

/-- The places of a kind are all hit when its tags are all met. -/
theorem places_iff (kind : TagKind)
    (own : ∀ tag ∈ hitTags (filedTags placed) marks, tag.node = node)
    (few : (tags node kind).size ≤ 32) :
    (∀ k, k < 32 ∧ k < (tags node kind).size ↔
      ∃ tag ∈ hitTags (filedTags placed) marks, tag.kind = kind ∧ tag.place = k) ↔
    ∀ tag ∈ (tags node kind).toList, Met marks tag.1 tag.2 := by
  constructor
  · intro places tag listed
    obtain ⟨k, found⟩ := List.getElem?_of_mem listed
    obtain ⟨inside, -⟩ := List.getElem?_eq_some_iff.mp found
    rw [TreeMap.length_toList] at inside
    obtain ⟨other, hit, rfl, rfl⟩ := (places k).mp ⟨by omega, inside⟩
    obtain ⟨-, found', met⟩ := hit_place own hit
    obtain rfl := Option.some.inj (found.symm.trans found')
    exact met
  · intro met k
    constructor
    · rintro ⟨-, inside⟩
      rw [← TreeMap.length_toList] at inside
      have found := List.getElem?_eq_getElem inside
      exact ⟨_, plain.hit among found (met _ (List.getElem_mem inside)), rfl, rfl⟩
    · rintro ⟨tag, hit, rfl, rfl⟩
      obtain ⟨small, found, -⟩ := hit_place own hit
      obtain ⟨inside, -⟩ := List.getElem?_eq_some_iff.mp found
      rw [TreeMap.length_toList] at inside
      exact ⟨small, inside⟩

/-- When only the node is hit, it is complete exactly when all its tags say so. -/
theorem complete_iff (and_ : node.type = adAudienceMergeAnd)
    (own : ∀ tag ∈ hitTags (filedTags placed) marks, tag.node = node) :
    Complete node (hitTags (filedTags placed) marks) ↔ Satisfied node marks := by
  have apart : adAudienceMergeAnd ≠ adAudienceMergeOr := by decide
  obtain ⟨few, few'⟩ := plain.few node among and_
  have search : _ ↔ ∀ tag ∈ node.search.toList, Met marks tag.1 tag.2 :=
    plain.places_iff among .search own few
  have visit : _ ↔ ∀ tag ∈ node.visit.toList, Met marks tag.1 tag.2 :=
    plain.places_iff among .visit own few'
  constructor
  · intro complete
    refine .inl ⟨and_, fun tag listed => ?_, fun tag listed met => ?_⟩
    · rcases List.mem_append.mp listed with searched | visited
      · exact search.mp complete.search tag searched
      · exact visit.mp complete.visit tag visited
    · obtain ⟨k, hit⟩ := plain.hit_of_mem among .unVisit listed met
      exact complete.unVisit _ hit rfl
  · rintro (⟨-, sought, avoided⟩ | ⟨or_, -⟩)
    · refine ⟨search.mpr fun tag listed => sought tag (List.mem_append_left _ listed),
        visit.mpr fun tag listed => sought tag (List.mem_append_right _ listed),
        fun tag hit kind => ?_⟩
      obtain ⟨-, found, met⟩ := hit_place own hit
      rw [kind] at found
      exact avoided _ (List.mem_of_getElem? found) met
    · exact absurd (and_.symm.trans or_) apart

omit among in
/-- A plain order is matched as it should be. -/
theorem straight : Straight placed marks := by
  constructor
  · rintro none ⟨node, among, satisfied⟩
    obtain ⟨kind, tag, listed, met⟩ := plain.touched_of_satisfied among satisfied
    obtain ⟨k, hit⟩ := plain.hit_of_mem among kind listed met
    rw [none] at hit
    exact absurd hit List.not_mem_nil
  · intro last found or_ _
    obtain ⟨known, touched⟩ := touched_of_hit (List.mem_of_getLast? found)
    obtain ⟨other, among, or', met⟩ := plain.sought _ known touched or_
    exact ⟨other, among, .inr ⟨or', met⟩⟩
  · intro last found and_ complete
    obtain ⟨known, touched⟩ := touched_of_hit (List.mem_of_getLast? found)
    refine ⟨last.node, known, (plain.complete_iff known and_ fun tag hit => ?_).mp complete⟩
    obtain ⟨known', touched'⟩ := touched_of_hit hit
    exact plain.alone _ known _ known' touched touched' and_
  · rintro last found and_ partial_ ⟨node, among, satisfied⟩
    obtain ⟨known, touched⟩ := touched_of_hit (List.mem_of_getLast? found)
    have own : ∀ node ∈ placed.unit.audience, Touched marks node → node = last.node :=
      fun node among touched' => plain.alone _ known _ among touched touched' and_
    obtain rfl := own node among (plain.touched_of_satisfied among satisfied)
    refine partial_ ((plain.complete_iff known and_ fun tag hit => ?_).mpr satisfied)
    exact own _ (touched_of_hit hit).1 (touched_of_hit hit).2
  · rintro last found neither or_ ⟨node, among, satisfied⟩
    obtain ⟨known, touched⟩ := touched_of_hit (List.mem_of_getLast? found)
    have touched' := plain.touched_of_satisfied among satisfied
    rcases satisfied with ⟨and_, -⟩ | ⟨or', -⟩
    · have same := plain.alone node among _ known touched' touched and_
      exact neither (same ▸ and_)
    · exact or_ (plain.alike node among _ known touched' touched or')

end Plain

/-- The filter is exact for a plain order. -/
theorem plain_exact (inside : placed ∈ loaded.orders) (waits : Sound loaded ready)
    (sound : Sound loaded result) (listed : placed.address ∈ ready.map Prod.fst)
    (new : placed.address ∉ result.map Prod.fst) (plain : Plain placed marks) :
    Exact loaded placed marks ready result :=
  (audience_exact_iff inside waits sound listed new).mpr plain.straight

/-- An audience to be found by the tag "ab". -/
def searchNode : AdAudienceNode where
  type := adAudienceMergeAnd
  search := (∅ : TreeMap Bytes UInt32).insert (ascii "ab") 30

def audienceOrder : AdPlanningUnit where
  order := { executeId := 7, nice := adOrderAudience }
  audience := [searchNode]

def fresh (mark : String) : AdUserMark := ⟨ascii mark, 1, 0⟩

theorem sound_audienceOrder : Sound (single audienceOrder) [(0, {})] :=
  ⟨List.pairwise_singleton _ _, fun entry inside => by
    rw [List.mem_singleton.mp inside]
    exact List.mem_singleton_self _⟩

theorem searchNode_satisfied {marks : List AdUserMark} (met : Met marks (ascii "ab") 30) :
    Wanted ⟨0, audienceOrder⟩ marks := by
  have sought : searchNode.search.toList ++ searchNode.visit.toList = [(ascii "ab", 30)] := by
    decide
  have avoided : searchNode.unVisit.toList = [] := by decide
  refine ⟨searchNode, List.mem_singleton_self _, .inl ⟨rfl, ?_, ?_⟩⟩
  · intro tag listed
    rw [sought, List.mem_singleton] at listed
    rw [listed]
    exact met
  · intro tag listed
    rw [avoided] at listed
    exact absurd listed List.not_mem_nil

/-- The filter is exact for a user with the mark "abc". -/
theorem longer_mark_exact :
    Exact (single audienceOrder) ⟨0, audienceOrder⟩ [fresh "abc"] [(0, {})] [] := by
  have own : ∀ node ∈ audienceOrder.audience, node = searchNode := fun node among =>
    List.mem_singleton.mp among
  have and_ : ∀ node ∈ audienceOrder.audience, node.type ≠ adAudienceMergeOr := by decide
  refine plain_exact (List.mem_singleton_self _) sound_audienceOrder sound_nil (.head _)
    List.not_mem_nil ⟨?_, ?_, ?_, ?_, ?_, ?_⟩
  · rintro node among kind k tag found -
    have listed := List.mem_of_getElem? found
    rw [own node among] at found listed
    obtain ⟨short, -⟩ := List.getElem?_eq_some_iff.mp found
    refine ⟨by decide, ?_, ?_⟩
    · have few : (tags searchNode kind).toList.length ≤ 1 := by cases kind <;> decide
      omega
    · have ab : tag = (ascii "ab", 30) := by
        have all : ∀ tag ∈ (tags searchNode kind).toList, tag = (ascii "ab", 30) := by
          cases kind <;> decide
        exact all tag listed
      rw [ab]
      exact ⟨fresh "abc", List.mem_singleton_self _, by decide, by decide, by decide⟩
  · decide
  · refine fun node among _ none => absurd none ?_
    rw [own node among]
    decide
  · exact fun node among other among' _ _ _ => (own other among').trans (own node among).symm
  · exact fun node among _ _ _ _ or_ => absurd or_ (and_ node among)
  · exact fun node among _ or_ => absurd or_ (and_ node among)

/-- A user with the mark "ab" has the whole tag, and the order is not kept. -/
theorem whole_mark_missed :
    ¬ ∀ (loaded : Loaded) (placed : Allocated) (marks : List AdUserMark) (ready result : AdResult),
      placed ∈ loaded.orders → Sound loaded ready → Sound loaded result →
      placed.address ∈ ready.map Prod.fst → placed.address ∉ result.map Prod.fst →
      Exact loaded placed marks ready result := by
  intro all
  have same := all (single audienceOrder) ⟨0, audienceOrder⟩ [fresh "ab"] [(0, {})] []
    (List.mem_singleton_self _) sound_audienceOrder sound_nil (.head _) List.not_mem_nil
  have missed : matchAudience (orderAt (single audienceOrder).orders)
      (markFilter (single audienceOrder)) [fresh "ab"] [(0, {})] [] = [] := by
    decide
  have wanted : Wanted ⟨0, audienceOrder⟩ [fresh "ab"] :=
    searchNode_satisfied ⟨fresh "ab", List.mem_singleton_self _, List.prefix_rfl, by decide⟩
  rw [Exact, missed] at same
  exact absurd (same.mpr wanted) List.not_mem_nil

end AudienceRule
