import RtbAdapter.FilterMark
import RtbAdapter.PatternSearch

/-!
# Additions that fail

An addition fails for a pattern of which nothing is left, and when there is no memory for
a node. It then clears the tree, and with it all patterns that were added before.
-/

namespace RejectedPatterns

open ByteWords CText PatternTree PatternSearch ShiftedScan
open NetProtocol (adSuccess adFailure)

variable {δ : Type}

/-- A call of `AdAcbmTreeAdd`, and what its allocations come to. -/
structure Call (δ : Type) where
  malloc : Nat → Bool
  sStr : Bytes
  pData : δ

def call (tree : AdAcbmTree δ) (c : Call δ) : Int × AdAcbmTree δ :=
  tree.adAcbmTreeAdd c.malloc c.sStr c.pData

/-- The tree after some calls, whether they fail or not. -/
def callAll (tree : AdAcbmTree δ) (calls : List (Call δ)) : AdAcbmTree δ :=
  calls.foldl (fun tree c => (call tree c).2) tree

/-- What a search pushes for one pattern. -/
def entriesAt (result : Option (Nat × List (Found δ))) (q : Bytes) : Option (List (Found δ)) :=
  result.map fun (_, found) => found.filter fun entry => entry.node = q

/-- Whatever is added later, a search finds the patterns of the tree as it would without the
call. -/
def Intact (tree : AdAcbmTree δ) (c : Call δ) : Prop :=
  ∀ (more : List (Call δ)) (sStr q : Bytes), tree.labelled q = true →
    entriesAt ((callAll (call tree c).2 more).adAcbmSearch sStr) q =
      entriesAt ((callAll tree more).adAcbmSearch sStr) q

/-- A pattern that a search of itself finds. -/
structure Findable (tree : AdAcbmTree δ) (q : Bytes) : Prop where
  labelled : tree.labelled q = true
  there : ∀ p, p <+: q → (tree.node p).isSome
  folded : q.map tolower = q
  some' : q ≠ []
  size : tree.iMinPtnSize ≤ q.length
  small : q.length < 2 ^ 31
  pushes : tree.hits q ≠ []

/-- Before any build, a tree that has counted a pattern has one that is found, and one that has
counted none has no label. -/
structure Reached (tree : AdAcbmTree δ) : Prop where
  unbuilt : Unbuilt tree.node
  none : tree.iPtnCount = 0 → ∀ q, tree.labelled q = false
  filed : tree.iPtnCount ≠ 0 → ∃ q, Findable tree q

theorem reached_bare (table : UInt8 → Int) : Reached ({ iBCShift := table } : AdAcbmTree δ) where
  unbuilt _ _ found := by cases found
  none _ _ := rfl
  filed some' := absurd rfl some'

variable {tree : AdAcbmTree δ} {c : Call δ}

theorem tolower_tolower (b : UInt8) : tolower (tolower b) = tolower b := by
  by_cases upper : 65 ≤ b ∧ b ≤ 90
  · have lower : tolower b = b + 32 := if_pos upper
    rw [lower]
    refine if_neg ?_
    simp only [UInt8.le_iff_toNat_le, UInt8.toNat_add] at upper ⊢
    simp at upper ⊢
    omega
  · have same : tolower b = b := if_neg upper
    rw [same, same]

/-- An addition fails and clears the tree, or it files its word in a tree with all nodes. -/
theorem addSized_cases (tree : AdAcbmTree δ) (malloc : Nat → Bool) (sStr : Bytes) (iPtnLen : Int)
    (pData : δ) :
    tree.addSized malloc sStr iPtnLen pData = (adFailure, tree.clear) ∨
    ∃ node after word, withRoot malloc tree.node = some node ∧ 0 < iPtnLen ∧
      word = (sStr.take iPtnLen.toNat).map tolower ∧
      grow malloc 1 (descend node [] word).1 (descend node [] word).2 node = some after ∧
      tree.addSized malloc sStr iPtnLen pData =
        (adSuccess, tree.file after word sStr iPtnLen pData) := by
  rw [AdAcbmTree.addSized]
  cases rooted : withRoot malloc tree.node with
  | none => exact .inl rfl
  | some node =>
    dsimp only
    by_cases empty : iPtnLen ≤ 0
    · rw [if_pos empty]
      exact .inl rfl
    · rw [if_neg empty]
      generalize whole : (sStr.take iPtnLen.toNat).map tolower = word
      cases grew : grow malloc 1 (descend node [] word).1 (descend node [] word).2 node with
      | none => exact .inl rfl
      | some after =>
        exact .inr ⟨node, after, word, rfl, Int.not_le.mp empty, rfl, grew, rfl⟩

/-- The same for a call, whose word is not empty and not longer than its text. -/
theorem call_cases (tree : AdAcbmTree δ) (c : Call δ) :
    call tree c = (adFailure, tree.clear) ∨
    ∃ node after word, withRoot c.malloc tree.node = some node ∧
      grow c.malloc 1 (descend node [] word).1 (descend node [] word).2 node = some after ∧
      word ≠ [] ∧ word.map tolower = word ∧ word.length < 2 ^ 31 ∧
      word.length ≤ c.sStr.length ∧
      call tree c = (adSuccess, tree.file after word c.sStr word.length c.pData) := by
  rcases addSized_cases tree c.malloc c.sStr (toInt32 c.sStr.length) c.pData with
    failed | ⟨node, after, word, rooted, positive, whole, grew, filed⟩
  · exact .inl failed
  have range := toInt32_range c.sStr.length
  obtain ⟨k, wrapped⟩ := toInt32_sub_dvd c.sStr.length
  have length : (word.length : Int) = toInt32 c.sStr.length := by
    rw [whole, List.length_map, List.length_take]
    omega
  have folded : word.map tolower = word := by
    rw [whole, List.map_map]
    exact List.map_congr_left fun b _ => tolower_tolower b
  have within : word.length ≤ c.sStr.length := by
    rw [whole, List.length_map]
    exact List.length_take_le' _ _
  refine .inr ⟨node, after, word, rooted, grew, ?_, folded, by omega, within, ?_⟩
  · rintro rfl
    rw [List.length_nil] at length
    omega
  · rw [length]
    exact filed

theorem withRoot_node {malloc : Nat → Bool} {old node : Bytes → Option AdAcbmNode}
    (rooted : withRoot malloc old = some node) :
    (node []).isSome ∧ (Unbuilt old → Unbuilt node) ∧
      ∀ p, (node p).map AdAcbmNode.iLabel = (old p).map AdAcbmNode.iLabel ∨
        (node p).map AdAcbmNode.iLabel = some (-2) := by
  refine ⟨?_, withRoot_unbuilt rooted, ?_⟩
  · rcases withRoot_cases rooted with ⟨there, rfl⟩ | ⟨_, rfl⟩
    · exact there
    · simp
  · intro p
    rcases withRoot_cases rooted with ⟨_, rfl⟩ | ⟨_, rfl⟩
    · exact .inl rfl
    by_cases here : p = []
    · subst here
      exact .inr (by simp)
    · exact .inl (by rw [Function.update_of_ne here])

theorem labelled_eq (tree : AdAcbmTree δ) (p : Bytes) : tree.labelled p =
    ((tree.node p).map AdAcbmNode.iLabel).any fun iLabel => 0 ≤ iLabel := by
  rw [AdAcbmTree.labelled, Option.any_map]

/-- A label that is at least zero was there before the nodes were made. -/
theorem grown_labelled {malloc : Nat → Bool} {node after : Bytes → Option AdAcbmNode}
    {word q : Bytes} {label : Int} (rooted : withRoot malloc tree.node = some node)
    (grew : grow malloc 1 (descend node [] word).1 (descend node [] word).2 node = some after)
    (nonneg : 0 ≤ label) (found : (after q).map AdAcbmNode.iLabel = some label) :
    (tree.node q).map AdAcbmNode.iLabel = some label := by
  rw [(grow_grown grew).label] at found
  split at found
  · obtain rfl := Option.some.inj found
    exact absurd nonneg (by decide)
  · rcases (withRoot_node rooted).2.2 q with same | root
    · exact same.symm.trans found
    · rw [root] at found
      obtain rfl := Option.some.inj found
      exact absurd nonneg (by decide)

/-- All nodes of the word are there. -/
theorem grown_there {malloc : Nat → Bool} {node after : Bytes → Option AdAcbmNode}
    {word p : Bytes} (root : (node []).isSome)
    (grew : grow malloc 1 (descend node [] word).1 (descend node [] word).2 node = some after)
    (start : p <+: word) : (after p).isSome := by
  obtain ⟨whole, last, _⟩ : (descend node [] word).1 ++ (descend node [] word).2 = [] ++ word ∧
      (node (descend node [] word).1).isSome ∧ _ := descend_spec root
  rw [List.nil_append] at whole
  rw [isSome_of_label ((grow_grown grew).label p)]
  refine or_iff_not_imp_left.mpr fun old => ?_
  have above : p <+: (descend node [] word).1 := above_of_old (whole.symm ▸ start) old
  cases p with
  | nil => exact root
  | cons c rest => exact descend_there List.nil_prefix (Nat.succ_pos _) above

/-- A word that was filed is found. -/
theorem file_findable {after : Bytes → Option AdAcbmNode} {word sStr : Bytes} {pData : δ}
    (there : ∀ p, p <+: word → (after p).isSome) (folded : word.map tolower = word)
    (some' : word ≠ []) (small : word.length < 2 ^ 31) :
    Findable (tree.file after word sStr word.length pData) word := by
  obtain ⟨n, stored⟩ := Option.isSome_iff_exists.mp (there word (List.prefix_refl word))
  have least : (if (word.length : Int) < tree.iMinPtnSize then (word.length : Int)
      else tree.iMinPtnSize) ≤ word.length := by
    split <;> omega
  by_cases new : n.iLabel < 0
  · rw [file_eq_new stored new]
    refine ⟨?_, fun p start => ?_, folded, some', least, small, ?_⟩
    · simp [AdAcbmTree.labelled]
    · by_cases here : p = word
      · simp [here]
      · dsimp only
        rw [Function.update_of_ne here]
        exact there p start
    · simp [AdAcbmTree.hits]
  · rw [file_eq_old stored new]
    refine ⟨?_, there, folded, some', least, small, ?_⟩
    · simpa [AdAcbmTree.labelled, stored] using new
    · simp [AdAcbmTree.hits, stored]

/-- A call leaves a tree whose patterns are found. -/
theorem reached_call (reached : Reached tree) (c : Call δ) : Reached (call tree c).2 := by
  rcases call_cases tree c with
    failed | ⟨node, after, word, rooted, grew, some', folded, small, _, filed⟩
  · rw [failed]
    exact reached_bare fun _ => 0
  rw [filed]
  obtain ⟨root, unbuilt, _⟩ := withRoot_node rooted
  have findable : Findable (tree.file after word c.sStr word.length c.pData) word :=
    file_findable (fun p start => grown_there root grew start) folded some' small
  refine ⟨file_unbuilt ((grow_grown grew).unbuilt (unbuilt reached.unbuilt)), ?_,
    fun _ => ⟨word, findable⟩⟩
  obtain ⟨n, stored⟩ := Option.isSome_iff_exists.mp
    (grown_there root grew (List.prefix_refl word))
  intro none
  exfalso
  by_cases old : n.iLabel < 0
  · rw [file_eq_new stored old] at none
    cases none
  · rw [file_eq_old stored old] at none
    have label : (after word).map AdAcbmNode.iLabel = some n.iLabel := by
      rw [stored, Option.map_some]
    have labelled := reached.none none word
    rw [labelled_eq, grown_labelled rooted grew (Int.not_lt.mp old) label] at labelled
    exact old (Int.not_le.mp (of_decide_eq_false labelled))

theorem reached_callAll (reached : Reached tree) (calls : List (Call δ)) :
    Reached (callAll tree calls) := by
  induction calls generalizing tree with
  | nil => exact reached
  | cons c calls ih => exact ih (reached_call reached c)

/-- A way down meets the labels that are on it, as far as there are nodes. -/
theorem mem_walk_iff {path rest q : Bytes} : q ∈ (tree.walk path rest).1 ↔
    tree.labelled q = true ∧ New path (rest.map tolower) q ∧
      ∀ p, New path (rest.map tolower) p → p <+: q → (tree.node p).isSome := by
  induction rest generalizing path with
  | nil =>
    refine iff_of_false List.not_mem_nil ?_
    rintro ⟨_, new, _⟩
    exact new_nil new
  | cons c rest ih =>
    rw [AdAcbmTree.walk, List.map_cons]
    dsimp only
    simp only [new_cons]
    by_cases child : (tree.node (path ++ [tolower c])).isSome
    · have inside : ∀ {l : Bytes × Option UInt8},
          (q ∈ (if tree.labelled (path ++ [tolower c]) = true then
            ((path ++ [tolower c]) :: (tree.walk (path ++ [tolower c]) rest).1, l)
            else ((tree.walk (path ++ [tolower c]) rest).1, l)).1) ↔
          (q = path ++ [tolower c] ∧ tree.labelled q = true) ∨
            q ∈ (tree.walk (path ++ [tolower c]) rest).1 := by
        intro l
        by_cases labelled : tree.labelled (path ++ [tolower c]) = true
        · rw [if_pos labelled, List.mem_cons]
          refine or_congr_left (iff_self_and.mpr ?_)
          rintro rfl
          exact labelled
        · rw [if_neg labelled]
          refine (or_iff_right ?_).symm
          rintro ⟨rfl, there⟩
          exact labelled there
      rw [if_pos child]
      refine inside.trans ?_
      rw [ih]
      constructor
      · rintro (⟨rfl, labelled⟩ | ⟨labelled, new, there⟩)
        · refine ⟨labelled, .inl rfl, ?_⟩
          rintro p (rfl | ⟨_, longer⟩) start
          · exact child
          · exact absurd start.length_le (Nat.not_le.mpr longer)
        · refine ⟨labelled, .inr new, ?_⟩
          rintro p (rfl | below) start
          · exact child
          · exact there p below start
      · rintro ⟨labelled, rfl | new, there⟩
        · exact .inl ⟨rfl, labelled⟩
        · exact .inr ⟨labelled, new, fun p below => there p (.inr below)⟩
    · rw [if_neg child]
      refine iff_of_false List.not_mem_nil ?_
      rintro ⟨_, new, there⟩
      refine child (there _ (.inl rfl) ?_)
      rcases new with rfl | ⟨start, longer⟩
      · exact List.prefix_refl _
      · exact List.prefix_of_prefix_length_le (List.prefix_append _ _) start longer.le

/-- A pattern is found in itself. -/
theorem findable_entries (unbuilt : Unbuilt tree.node) {q : Bytes} (findable : Findable tree q) :
    ∃ entry rest, entriesAt (tree.adAcbmSearch q) q = some (entry :: rest) := by
  have size : toInt32 q.length = q.length :=
    toInt32_of_range (by omega) (by exact_mod_cast findable.small)
  have long : ¬ (q.length : Int) < tree.iMinPtnSize := Int.not_lt.mpr findable.size
  have root := findable.there [] List.nil_prefix
  obtain ⟨n, last⟩ : ∃ n, ((q.length : Int) - tree.iMinPtnSize + 1).toNat = n + 1 := by
    have := findable.size
    exact ⟨((q.length : Int) - tree.iMinPtnSize).toNat, by omega⟩
  have walked : q ∈ tree.scan q 0 ((q.length : Int) - tree.iMinPtnSize + 1).toNat := by
    rw [scan_eq, starts_plain (passes_unbuilt unbuilt q), List.mem_flatMap]
    refine ⟨0, by simp [last], ?_⟩
    refine mem_walk_iff.mpr ⟨findable.labelled, ?_, fun p _ start => findable.there p start⟩
    refine ⟨?_, List.length_pos_iff.mpr findable.some'⟩
    rw [List.nil_append, List.drop_zero, findable.folded]
  obtain ⟨entry, pushed⟩ := List.exists_mem_of_ne_nil _ findable.pushes
  have here : entry.node = q := by
    obtain ⟨data, _, rfl⟩ := List.mem_map.mp pushed
    rfl
  have inside : entry ∈ ((tree.scan q 0 ((q.length : Int) - tree.iMinPtnSize + 1).toNat).flatMap
      tree.hits).filter fun entry => entry.node = q :=
    List.mem_filter.mpr ⟨List.mem_flatMap.mpr ⟨q, walked, pushed⟩, by simpa using here⟩
  obtain ⟨first, rest, split⟩ := List.exists_cons_of_ne_nil (List.ne_nil_of_mem inside)
  refine ⟨first, rest, ?_⟩
  rw [AdAcbmTree.adAcbmSearch, size]
  dsimp only
  rw [if_neg long, if_pos root, seen_small findable.small, entriesAt, Option.map_some]
  exact congrArg some split

/-- A cleared tree finds nothing, or ends the process. -/
theorem clear_entries (tree : AdAcbmTree δ) (sStr q : Bytes) {entry : Found δ}
    {rest : List (Found δ)} :
    entriesAt (tree.clear.adAcbmSearch sStr) q ≠ some (entry :: rest) := by
  rw [AdAcbmTree.adAcbmSearch]
  dsimp only
  split
  · simp [entriesAt]
  · simp [entriesAt, AdAcbmTree.clear]

/-- An addition that fails leaves the other patterns alone exactly when there are none. -/
theorem intact_iff (table : UInt8 → Int) (calls : List (Call δ)) (c : Call δ)
    (failed : (call (callAll (.init table) calls) c).1 = adFailure) :
    Intact (callAll (.init table) calls) c ↔ (callAll (.init table) calls).iPtnCount = 0 := by
  have reached : Reached (callAll (.init table) calls) :=
    reached_callAll (reached_bare table) calls
  have differ : adSuccess ≠ adFailure := by decide
  constructor
  · intro intact
    by_contra some'
    obtain ⟨q, findable⟩ := reached.filed some'
    obtain ⟨entry, rest, found⟩ := findable_entries reached.unbuilt findable
    have cleared : (call (callAll (.init table) calls) c).2 =
        (callAll (.init table) calls).clear := by
      rcases call_cases (callAll (.init table) calls) c with
        failure | ⟨_, _, _, _, _, _, _, _, _, filed⟩
      · rw [failure]
      · rw [filed] at failed
        exact absurd failed differ
    have same : entriesAt ((call (callAll (.init table) calls) c).2.adAcbmSearch q) q =
        entriesAt ((callAll (.init table) calls).adAcbmSearch q) q :=
      intact [] q q findable.labelled
    rw [found, cleared] at same
    exact clear_entries _ q q same
  · intro none more sStr q labelled
    rw [reached.none none q] at labelled
    cases labelled

/-- A keyword of which nothing is left makes the tree forget the one before. -/
theorem star_intact_iff :
    Intact (callAll (.init fun _ => 0) [⟨fun _ => true, ascii "abc", 1⟩])
        ⟨fun _ => true, FilterMark.adFilterMarkGetStr (ascii "*"), 2⟩ ↔
      (callAll (.init fun _ => 0) [⟨fun _ => true, ascii "abc", 1⟩]).iPtnCount = 0 :=
  intact_iff (fun _ => 0) [⟨fun _ => true, ascii "abc", 1⟩]
    ⟨fun _ => true, FilterMark.adFilterMarkGetStr (ascii "*"), 2⟩ (by decide +kernel)

theorem star_clears : ¬ ∀ (calls : List (Call Nat)) (c : Call Nat),
    (call (callAll (.init fun _ => 0) calls) c).1 = adFailure →
      Intact (callAll (.init fun _ => 0) calls) c := by
  intro all
  have intact := all [⟨fun _ => true, ascii "abc", 1⟩]
    ⟨fun _ => true, FilterMark.adFilterMarkGetStr (ascii "*"), 2⟩ (by decide +kernel)
  exact absurd (intact [] (ascii "xabc") (ascii "abc") (by decide +kernel)) (by decide +kernel)

end RejectedPatterns
