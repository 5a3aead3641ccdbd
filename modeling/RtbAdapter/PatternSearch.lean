import Mathlib.Algebra.BigOperators.Group.List.Basic
import Mathlib.Algebra.Order.BigOperators.Group.List
import RtbAdapter.PatternTree
import RtbAdapter.ShiftedScan

/-!
# What a search of the tree finds

Before any build a search tries every start position. It finds each pattern wherever it
stands, and pushes the text that stands under the label of the pattern in the vector of
all texts, once for each time that the pattern was added.
-/

namespace PatternSearch

open ByteWords CText PatternTree ShiftedScan

variable {δ : Type} {adds : List (Bytes × δ)} {tree : AdAcbmTree δ} {q sStr text : Bytes}

theorem node_isSome (holds : Holds tree adds) (path : Bytes) :
    (tree.node path).isSome ↔ (path = [] ∧ adds ≠ []) ∨ ∃ q ∈ keys adds, path <+: q := by
  rw [← labelOf_isSome, ← holds.label, Option.isSome_map]

theorem labelled_iff (holds : Holds tree adds) (path : Bytes) :
    tree.labelled path = true ↔ path ∈ firsts adds := by
  have label := holds.label path
  cases found : tree.node path with
  | none =>
    rw [found] at label
    refine iff_of_false (by simp [AdAcbmTree.labelled, found]) fun first => ?_
    rw [labelOf, if_pos first] at label
    cases label
  | some node =>
    rw [found, Option.map_some] at label
    rw [← labelOf_nonneg label.symm]
    simp [AdAcbmTree.labelled, found]

/-- The patterns on the way down are those that go on from the node along the text. -/
theorem walk_perm (holds : Holds tree adds) (path rest : Bytes) :
    (tree.walk path rest).1.Perm
      ((firsts adds).filter fun q => New path (rest.map tolower) q) := by
  induction rest generalizing path with
  | nil =>
    have none : (firsts adds).filter (fun q => New path [] q) = [] := by
      rw [List.filter_eq_nil_iff]
      intro q _ new
      exact new_nil (by simpa using new)
    rw [AdAcbmTree.walk, List.map_nil, none]
  | cons c rest ih =>
    let child := path ++ [tolower c]
    rw [AdAcbmTree.walk, List.map_cons]
    dsimp only
    split
    case isTrue =>
      have split : ((firsts adds).filter fun q => New path (tolower c :: rest.map tolower) q).Perm
          ((firsts adds).filter (fun q => q = child) ++
            (firsts adds).filter fun q => New child (rest.map tolower) q) := by
        have parts := List.filter_append_perm (fun q : Bytes => decide (q = child))
          ((firsts adds).filter fun q => New path (tolower c :: rest.map tolower) q)
        refine parts.symm.trans ?_
        rw [List.filter_filter, List.filter_filter]
        refine .append ?_ ?_
        · refine .of_eq (List.filter_congr fun q _ => ?_)
          by_cases same : q = child
          · simp [same, new_cons, child]
          · simp [same]
        · refine .of_eq (List.filter_congr fun q _ => ?_)
          by_cases same : q = child
          · have old : ¬ New child (rest.map tolower) q := fun new => by
              rw [same] at new
              exact absurd new.2 (lt_irrefl _)
            simp [same]
            rwa [same] at old
          · simp [same, new_cons, child]
      refine List.Perm.trans ?_ split.symm
      by_cases first : child ∈ firsts adds
      · have alone : (firsts adds).filter (fun q => q = child) = [child] := by
          rw [List.filter_eq, List.count_eq_one_of_mem firsts_nodup first]
          rfl
        have labelled := (labelled_iff holds child).mpr first
        rw [if_pos labelled, alone]
        exact (ih child).cons child
      · have none : (firsts adds).filter (fun q => q = child) = [] := by
          rw [List.filter_eq_nil_iff]
          intro q listed same
          exact first (of_decide_eq_true same ▸ listed)
        have bare := mt (labelled_iff holds child).mp first
        rw [if_neg bare, none, List.nil_append]
        exact ih child
    case isFalse missing =>
      have none : (firsts adds).filter
          (fun q => New path (tolower c :: rest.map tolower) q) = [] := by
        rw [List.filter_eq_nil_iff]
        intro q listed new
        have below : child <+: q := by
          rcases new_cons.mp (of_decide_eq_true new) with rfl | ⟨start, longer⟩
          · exact List.prefix_refl _
          · exact List.prefix_of_prefix_length_le (List.prefix_append _ _) start longer.le
        exact missing ((node_isSome holds child).mpr (.inr ⟨q, mem_firsts.mp listed, below⟩))
      rw [none]

/-- The pattern stands in the text at a position. -/
def StandsAt (q text : Bytes) (b : Nat) : Prop := q <+: (text.drop b).map tolower

instance (b : Nat) : Decidable (StandsAt q text b) :=
  inferInstanceAs (Decidable (q <+: (text.drop b).map tolower))

/-- How often the pattern stands in the text. -/
def occurrences (q text : Bytes) : Nat := (List.range text.length).countP fun b => StandsAt q text b

def passes (tree : AdAcbmTree δ) (text : Bytes) (b : Nat) : Nat :=
  let (_, last, next) := tree.walk [] (text.drop b)
  (tree.shift last next).toNat - 1

theorem scan_eq (tree : AdAcbmTree δ) (text : Bytes) (skip n : Nat) :
    tree.scan text skip n = (starts (passes tree text) skip n).flatMap fun b =>
      (tree.walk [] (text.drop b)).1 := by
  induction n generalizing skip with
  | zero => cases skip <;> rfl
  | succ n ih =>
    cases skip with
    | zero =>
      rw [AdAcbmTree.scan, starts, List.flatMap_cons]
      dsimp only
      rw [ih]
      rfl
    | succ skip => exact ih skip

/-- Without a build every shift is one. -/
theorem passes_unbuilt (unbuilt : Unbuilt tree.node) (text : Bytes) (b : Nat) :
    passes tree text b = 0 := by
  have one : ∀ last next, tree.shift last next = 1 := by
    intro last next
    rw [AdAcbmTree.shift.eq_def]
    split
    · next node _ =>
      split
      · have flat : ((tree.node (last ++ [node.ucChild])).map AdAcbmNode.iGSShift).getD 0 = 0 := by
          cases found : tree.node (last ++ [node.ucChild]) with
          | none => rfl
          | some child => exact unbuilt _ child found
        rw [flat]
        dsimp only
        split <;> omega
      · rfl
    · rfl
  rw [passes]
  dsimp only
  rw [one]
  rfl

theorem mem_walk (holds : Holds tree adds) (b : Nat) :
    q ∈ (tree.walk [] (text.drop b)).1 ↔ q ∈ firsts adds ∧ StandsAt q text b := by
  rw [(walk_perm holds [] (text.drop b)).mem_iff, List.mem_filter, decide_eq_true_eq]
  refine and_congr_right fun first => ?_
  have some' : q ≠ [] := fun none => holds.nonempty (mem_firsts.mp (none ▸ first))
  exact and_iff_left (List.length_pos_iff.mpr some')

theorem sum_new (text : Bytes) (b : Nat) (amount : Bytes → Nat) {words : List Bytes}
    (nonempty : ∀ q ∈ words, q ≠ []) :
    ((words.filter fun q => New [] ((text.drop b).map tolower) q).map amount).sum =
      (words.map fun q => if StandsAt q text b then amount q else 0).sum := by
  induction words with
  | nil => rfl
  | cons q rest ih =>
    obtain ⟨some', others⟩ := List.forall_mem_cons.mp nonempty
    have new : New [] ((text.drop b).map tolower) q ↔ StandsAt q text b :=
      and_iff_left (List.length_pos_iff.mpr some')
    rw [List.filter_cons, List.map_cons, List.sum_cons, ← ih others]
    by_cases stands : StandsAt q text b
    · rw [if_pos (decide_eq_true (new.mpr stands)), if_pos stands, List.map_cons, List.sum_cons]
    · rw [if_neg fun here => stands (new.mp (of_decide_eq_true here)), if_neg stands, Nat.zero_add]

/-- What the positions give together is what each pattern gives, as often as it stands at one. -/
theorem sum_walks (holds : Holds tree adds) (text : Bytes) (amount : Bytes → Nat)
    (bs : List Nat) :
    ((bs.flatMap fun b => (tree.walk [] (text.drop b)).1).map amount).sum =
      ((firsts adds).map fun q => (bs.countP fun b => StandsAt q text b) * amount q).sum := by
  induction bs with
  | nil => simp
  | cons b bs ih =>
    have here : (((tree.walk [] (text.drop b)).1).map amount).sum =
        ((firsts adds).map fun q => if StandsAt q text b then amount q else 0).sum := by
      rw [((walk_perm holds [] (text.drop b)).map amount).sum_eq]
      exact sum_new text b amount fun q first none => holds.nonempty (mem_firsts.mp (none ▸ first))
    rw [List.flatMap_cons, List.map_append, List.sum_append, here, ih, ← List.sum_map_add]
    refine congrArg List.sum (List.map_congr_left fun q _ => ?_)
    rw [List.countP_cons]
    by_cases stands : StandsAt q text b
    · simp [stands, Nat.add_mul, Nat.add_comm]
    · simp [stands]

/-- The text that stands under the label of a pattern. -/
def reads (adds : List (Bytes × δ)) (q : Bytes) : Bytes :=
  (adds.map Prod.fst).getD ((firsts adds).idxOf q) []

theorem hits_eq (holds : Holds tree adds) (first : q ∈ firsts adds) :
    tree.hits q = (dataOf adds q).map fun data => ⟨q, data, reads adds q⟩ := by
  have label := holds.label q
  rw [labelOf, if_pos first] at label
  rw [AdAcbmTree.hits, label, Option.getD_some, holds.data q first, holds.vStr, Int.toNat_natCast]
  rfl

variable [DecidableEq δ]

/-- The entries of a datum that read a pattern. -/
def entries (found : List (Found δ)) (pData : δ) (q : Bytes) : Nat :=
  (mResult found pData).countP fun sText => key sText = q

theorem entries_eq (found : List (Found δ)) (pData : δ) (q : Bytes) :
    entries found pData q = found.countP fun entry => key entry.text = q ∧ entry.data = pData := by
  rw [entries, mResult, List.countP_map, List.countP_filter]
  refine List.countP_congr fun entry _ => ?_
  simp

theorem entries_hits (holds : Holds tree adds) (pData : δ) {p : Bytes} (first : p ∈ firsts adds) :
    (tree.hits p).countP (fun entry => key entry.text = q ∧ entry.data = pData) =
      if key (reads adds p) = q then (dataOf adds p).count pData else 0 := by
  rw [hits_eq holds first, List.countP_map]
  by_cases same : key (reads adds p) = q
  · rw [if_pos same, List.count]
    refine List.countP_congr fun data _ => ?_
    simp [same]
  · rw [if_neg same, List.countP_eq_zero]
    intro data _
    simp [same]

/-- The start positions that are behind the last one have no room for a pattern. -/
theorem countP_starts (q text : Bytes) {n : Nat} (least : text.length + 1 ≤ n + q.length)
    (within : n ≤ text.length) :
    (List.range n).reverse.countP (fun b => StandsAt q text b) = occurrences q text := by
  obtain ⟨more, whole⟩ := Nat.exists_eq_add_of_le within
  have late : ((List.range more).map (n + ·)).countP (fun b => StandsAt q text b) = 0 := by
    rw [List.countP_eq_zero]
    intro b listed
    obtain ⟨i, inside, rfl⟩ := List.mem_map.mp listed
    rw [decide_eq_true_eq]
    intro stands
    have length := stands.length_le
    rw [List.length_map, List.length_drop] at length
    have bound := List.mem_range.mp inside
    omega
  rw [List.countP_reverse, occurrences, whole, List.range_add, List.countP_append, late,
    Nat.add_zero]

omit [DecidableEq δ] in
theorem leastSize_pos (sized : Sized adds) : 0 < leastSize adds := by
  induction adds using List.reverseRecOn with
  | nil => exact (by decide : (0 : Int) < 512)
  | append_singleton adds add ih =>
    have before := ih fun other listed => sized other (List.mem_append_left _ listed)
    have some' := List.length_pos_iff.mpr (sized add (by simp)).1
    rw [leastSize_concat]
    split <;> omega

theorem occurrences_short (short : text.length < q.length) : occurrences q text = 0 := by
  rw [occurrences, List.countP_eq_zero]
  intro b _
  rw [decide_eq_true_eq]
  intro stands
  have length := stands.length_le
  rw [List.length_map, List.length_drop] at length
  omega

theorem seen_small (small : sStr.length < 2 ^ 31) : AdAcbmTree.seen sStr = sStr := by
  rw [AdAcbmTree.seen, toInt32_of_range (by omega) (by omega), Int.toNat_natCast, List.take_length]

/-- The entries of a plain search, pattern by pattern. -/
theorem search_entries (holds : Holds tree adds) (unbuilt : Unbuilt tree.node)
    (sized : Sized adds) (small : sStr.length < 2 ^ 31) (rooted : adds = [] → sStr.length < 512) :
    ∃ iMatch found, tree.adAcbmSearch sStr = some (iMatch, found) ∧ ∀ pData q,
      entries found pData q = ((firsts adds).map fun p => occurrences p sStr *
        if key (reads adds p) = q then (dataOf adds p).count pData else 0).sum := by
  have size : toInt32 sStr.length = sStr.length := toInt32_of_range (by omega) (by omega)
  have positive := leastSize_pos sized
  rw [AdAcbmTree.adAcbmSearch]
  dsimp only
  rw [size, holds.size]
  by_cases short : (sStr.length : Int) < leastSize adds
  · refine ⟨0, [], if_pos short, fun pData q => ?_⟩
    rw [List.sum_eq_zero]
    · rfl
    · intro n listed
      obtain ⟨p, first, rfl⟩ := List.mem_map.mp listed
      have least := leastSize_le (mem_firsts.mp first)
      rw [occurrences_short (by omega), Nat.zero_mul]
  · have filed : adds ≠ [] := by
      rintro rfl
      have bound := rooted rfl
      have least : leastSize ([] : List (Bytes × δ)) = 512 := rfl
      omega
    have root : (tree.node []).isSome := (node_isSome holds []).mpr (.inl ⟨rfl, filed⟩)
    rw [if_neg short, if_pos root, seen_small small]
    refine ⟨_, _, rfl, fun pData q => ?_⟩
    rw [entries_eq, List.countP_flatMap, scan_eq, starts_plain (passes_unbuilt unbuilt sStr)]
    rw [sum_walks holds]
    refine congrArg List.sum (List.map_congr_left fun p first => ?_)
    have least := leastSize_le (mem_firsts.mp first)
    rw [countP_starts p sStr (by omega) (by omega)]
    rw [Function.comp_apply, entries_hits holds pData first]

theorem eraseDups_length (l : List Bytes) :
    l.eraseDups.length ≤ l.length ∧ (l.eraseDups.length = l.length ↔ l.Nodup) := by
  induction l using List.reverseRecOn with
  | nil => simp
  | append_singleton l q ih =>
    obtain ⟨bound, exact'⟩ := ih
    have apart : (l ++ [q]).Nodup ↔ l.Nodup ∧ q ∉ l := by
      rw [← List.concat_eq_append, List.nodup_concat, and_comm]
    have split : (l ++ [q]).eraseDups.length = l.eraseDups.length + if q ∈ l then 0 else 1 := by
      rw [List.eraseDups_append, List.length_append]
      by_cases old : q ∈ l
      · simp [List.removeAll, old]
      · simp [List.removeAll, old, List.eraseDups_cons]
    rw [apart, ← exact', List.length_append, List.length_singleton, split]
    by_cases old : q ∈ l
    · simp only [old, if_true, not_true, and_false, iff_false]
      omega
    · simp only [old, if_false, not_false_iff, and_true]
      omega

/-- The first place of what stands somewhere is not behind it. -/
theorem idxOf_eraseDups_le {l : List Bytes} {i : Nat} (there : l[i]? = some q) :
    l.eraseDups.idxOf q ≤ i := by
  obtain ⟨inside, _⟩ := List.getElem?_eq_some_iff.mp there
  have early : q ∈ l.take (i + 1) := by
    apply List.mem_of_getElem? (i := i)
    rw [List.getElem?_take_of_lt (by omega), there]
  have parts : l.eraseDups =
      (l.take (i + 1)).eraseDups ++ ((l.drop (i + 1)).removeAll (l.take (i + 1))).eraseDups := by
    rw [← List.eraseDups_append, List.take_append_drop]
  have first : q ∈ (l.take (i + 1)).eraseDups := List.mem_eraseDups.mpr early
  rw [parts, List.idxOf_append_of_mem first]
  have place := List.idxOf_lt_length_of_mem first
  have bound := (eraseDups_length (l.take (i + 1))).1
  rw [List.length_take] at bound
  omega

omit [DecidableEq δ] in
/-- What a pattern's label reads stands at the pattern's place among the first ones. -/
theorem keys_reads (first : q ∈ firsts adds) :
    (keys adds)[(firsts adds).idxOf q]? = some (key (reads adds q)) := by
  have place := List.idxOf_lt_length_of_mem first
  have bound : (firsts adds).length ≤ (keys adds).length := (eraseDups_length (keys adds)).1
  rw [keys, List.length_map] at bound
  have inside : (firsts adds).idxOf q < adds.length := by omega
  rw [keys, List.getElem?_map, reads, List.getElem?_eq_getElem inside]
  simp [List.getD, inside]

omit [DecidableEq δ] in
theorem idxOf_reads_le (first : q ∈ firsts adds) :
    (firsts adds).idxOf (key (reads adds q)) ≤ (firsts adds).idxOf q :=
  idxOf_eraseDups_le (keys_reads first)

omit [DecidableEq δ] in
/-- A label reads its own pattern exactly when the patterns before the first addition of it
are all different. -/
theorem reads_self_iff {before after : List (Bytes × δ)} {pattern : Bytes} {pData : δ}
    (whole : adds = before ++ (pattern, pData) :: after) (new : key pattern ∉ keys before) :
    key (reads adds (key pattern)) = key pattern ↔ (keys before).Nodup := by
  have all : keys adds = keys before ++ key pattern :: keys after := by
    rw [whole, keys, List.map_append]
    rfl
  have firsts_eq : ∃ rest, firsts adds = (keys before).eraseDups ++ key pattern :: rest := by
    have alone : (key pattern :: keys after).removeAll (keys before) =
        key pattern :: (keys after).removeAll (keys before) := by
      simp [List.removeAll, new]
    rw [firsts, all, List.eraseDups_append, alone, List.eraseDups_cons]
    exact ⟨_, rfl⟩
  obtain ⟨rest, split⟩ := firsts_eq
  have first : key pattern ∈ firsts adds := by
    rw [split]
    simp
  have place : (firsts adds).idxOf (key pattern) = (keys before).eraseDups.length := by
    have out : key pattern ∉ (keys before).eraseDups := mt List.mem_eraseDups.mp new
    rw [split, List.idxOf_append_of_notMem out]
    simp
  have stored := keys_reads first
  obtain ⟨bound, exact'⟩ := eraseDups_length (keys before)
  rw [place, all] at stored
  constructor
  · intro same
    by_contra again
    have short : (keys before).eraseDups.length < (keys before).length :=
      lt_of_le_of_ne bound (mt exact'.mp again)
    rw [List.getElem?_append_left short, same] at stored
    exact new (List.mem_of_getElem? stored)
  · intro apart
    rw [exact'.mpr apart, List.getElem?_append_right le_rfl, Nat.sub_self] at stored
    exact (Option.some.inj stored).symm

/-- The search answers, and each datum has one entry for each place at which a pattern stands
that was added with it, reading that pattern. -/
def Exact (adds : List (Bytes × δ)) (sStr : Bytes) (result : Option (Nat × List (Found δ))) :
    Prop :=
  ∃ iMatch found, result = some (iMatch, found) ∧ ∀ pData q,
    entries found pData q = if pData ∈ dataOf adds q then occurrences q sStr else 0

/-- Something was added, or the text is short; and of a pattern that stands in the text, no other
was added twice before it, and none of its data was added with it twice. -/
structure Plain (adds : List (Bytes × δ)) (sStr : Bytes) : Prop where
  rooted : adds = [] → sStr.length < 512
  once : ∀ before pattern pData after, adds = before ++ (pattern, pData) :: after →
    key pattern ∉ keys before → 0 < occurrences (key pattern) sStr →
      (keys before).Nodup ∧ (dataOf adds (key pattern)).Nodup

/-- The label of the pattern reads it, and its data are all different. -/
def Fine (adds : List (Bytes × δ)) (q : Bytes) : Prop :=
  key (reads adds q) = q ∧ (dataOf adds q).Nodup

omit [DecidableEq δ] in
/-- A pattern is added for a first time. -/
theorem first_split (first : q ∈ firsts adds) :
    ∃ before pattern pData after, adds = before ++ (pattern, pData) :: after ∧
      key pattern = q ∧ q ∉ keys before := by
  have listed := mem_firsts.mp first
  induction adds with
  | nil => cases listed
  | cons add rest ih =>
    by_cases here : key add.1 = q
    · exact ⟨[], add.1, add.2, rest, rfl, here, by simp [keys]⟩
    · have later : q ∈ keys rest := by
        rcases List.mem_cons.mp listed with same | later
        · exact absurd same.symm here
        · exact later
      obtain ⟨before, pattern, pData, after, rfl, same, new⟩ := ih (mem_firsts.mpr later) later
      refine ⟨add :: before, pattern, pData, after, rfl, same, ?_⟩
      rw [keys, List.map_cons, List.mem_cons, not_or]
      exact ⟨Ne.symm here, new⟩

omit [DecidableEq δ] in
theorem fine_iff :
    (∀ q ∈ firsts adds, 0 < occurrences q sStr → Fine adds q) ↔
      ∀ before pattern pData after, adds = before ++ (pattern, pData) :: after →
        key pattern ∉ keys before → 0 < occurrences (key pattern) sStr →
          (keys before).Nodup ∧ (dataOf adds (key pattern)).Nodup := by
  constructor
  · intro fine before pattern pData after whole new stands
    have first : key pattern ∈ firsts adds := by
      rw [mem_firsts, whole, keys, List.map_append]
      simp
    obtain ⟨own, apart⟩ := fine (key pattern) first stands
    exact ⟨(reads_self_iff whole new).mp own, apart⟩
  · intro once q first stands
    obtain ⟨before, pattern, pData, after, whole, rfl, new⟩ := first_split first
    obtain ⟨early, apart⟩ := once before pattern pData after whole new stands
    exact ⟨(reads_self_iff whole new).mpr early, apart⟩

/-- The term of one pattern in the number of entries. -/
def share (adds : List (Bytes × δ)) (sStr : Bytes) (pData : δ) (q p : Bytes) : Nat :=
  occurrences p sStr * if key (reads adds p) = q then (dataOf adds p).count pData else 0

theorem share_le {pData : δ} {p : Bytes} (first : p ∈ firsts adds) :
    share adds sStr pData q p ≤ ((firsts adds).map (share adds sStr pData q)).sum :=
  List.single_le_sum (fun _ _ => Nat.zero_le _) _ (List.mem_map_of_mem first)

/-- When the sums are right, a label that reads another pattern would have to be made up for by
a later one, so that from the last pattern on each label reads its own. -/
theorem fine_of_sums (sums : ∀ pData q, ((firsts adds).map (share adds sStr pData q)).sum =
      if pData ∈ dataOf adds q then occurrences q sStr else 0) :
    ∀ n q, q ∈ firsts adds → (firsts adds).length ≤ (firsts adds).idxOf q + n →
      0 < occurrences q sStr → Fine adds q := by
  intro n
  induction n with
  | zero =>
    intro q first late _
    have place := List.idxOf_lt_length_of_mem first
    omega
  | succ n ih =>
    intro q first late stands
    have own : key (reads adds q) = q := by
      by_contra other
      obtain ⟨before, pattern, pData, after, whole, same, _⟩ := first_split first
      have added : pData ∈ dataOf adds q := by
        rw [dataOf, List.mem_map]
        exact ⟨(pattern, pData), List.mem_filter.mpr ⟨by simp [whole], by simpa using same⟩, rfl⟩
      have sum := sums pData q
      rw [if_pos added] at sum
      have some' : ∃ p ∈ firsts adds, share adds sStr pData q p ≠ 0 := by
        by_contra none
        have zero : ((firsts adds).map (share adds sStr pData q)).sum = 0 := by
          rw [List.sum_eq_zero]
          intro x listed
          obtain ⟨p, inside, rfl⟩ := List.mem_map.mp listed
          by_contra more
          exact none ⟨p, inside, more⟩
        omega
      obtain ⟨p, listed, some'⟩ := some'
      have stands' : 0 < occurrences p sStr := by
        refine Nat.pos_of_ne_zero fun none => some' ?_
        rw [share, none, Nat.zero_mul]
      have readsq : key (reads adds p) = q := by
        by_contra apart
        exact some' (by rw [share, if_neg apart, Nat.mul_zero])
      have before' := idxOf_reads_le listed
      rw [readsq] at before'
      have different : p ≠ q := by
        rintro rfl
        exact other readsq
      have behind : (firsts adds).idxOf q < (firsts adds).idxOf p :=
        lt_of_le_of_ne before' fun together => different ((List.idxOf_inj first).mp together).symm
      obtain ⟨fine, _⟩ := ih p listed (by omega) stands'
      exact different (fine.symm.trans readsq)
    refine ⟨own, List.nodup_iff_count_le_one.mpr fun pData => ?_⟩
    have bound : share adds sStr pData q q ≤ ((firsts adds).map (share adds sStr pData q)).sum :=
      share_le first
    rw [sums, share, if_pos own] at bound
    by_cases added : pData ∈ dataOf adds q
    · rw [if_pos added] at bound
      exact Nat.le_of_mul_le_mul_left (by rwa [Nat.mul_one]) stands
    · rw [List.count_eq_zero_of_not_mem added]
      exact Nat.zero_le 1

theorem sum_alone {words : List Bytes} (apart : words.Nodup) (listed : q ∈ words) (n : Nat) :
    (words.map fun p => if p = q then n else 0).sum = n := by
  induction words with
  | nil => cases listed
  | cons p rest ih =>
    obtain ⟨fresh, apart⟩ := List.nodup_cons.mp apart
    rw [List.map_cons, List.sum_cons]
    rcases List.mem_cons.mp listed with rfl | later
    · have none : ∀ x ∈ rest.map (fun p => if p = q then n else 0), x = 0 := by
        intro x inside
        obtain ⟨word, other, rfl⟩ := List.mem_map.mp inside
        refine if_neg ?_
        rintro rfl
        exact fresh other
      rw [if_pos rfl, List.sum_eq_zero none, Nat.add_zero]
    · have different : p ≠ q := fun same => fresh (same ▸ later)
      rw [if_neg different, Nat.zero_add, ih apart later]

/-- When each label reads its own pattern and no datum is doubled, the sums are right. -/
theorem sums_of_fine (fine : ∀ q ∈ firsts adds, 0 < occurrences q sStr → Fine adds q)
    (pData : δ) (q : Bytes) :
    ((firsts adds).map (share adds sStr pData q)).sum =
      if pData ∈ dataOf adds q then occurrences q sStr else 0 := by
  have each : ∀ p ∈ firsts adds, share adds sStr pData q p =
      if p = q then if pData ∈ dataOf adds q then occurrences q sStr else 0 else 0 := by
    intro p first
    rw [share]
    rcases Nat.eq_zero_or_pos (occurrences p sStr) with none | stands
    · rw [none, Nat.zero_mul]
      split
      · next same =>
        rw [← same, none, ite_self]
      · rfl
    · obtain ⟨own, apart⟩ := fine p first stands
      rw [own]
      by_cases same : p = q
      · subst same
        rw [if_pos rfl, if_pos rfl]
        by_cases added : pData ∈ dataOf adds p
        · rw [if_pos added, List.count_eq_one_of_mem apart added, Nat.mul_one]
        · rw [if_neg added, List.count_eq_zero_of_not_mem added, Nat.mul_zero]
      · rw [if_neg same, if_neg same, Nat.mul_zero]
  rw [List.map_congr_left each]
  by_cases first : q ∈ firsts adds
  · exact sum_alone firsts_nodup first _
  · have none : dataOf adds q = [] := dataOf_absent (mt mem_firsts.mpr first)
    simp [none]

/-- A search before any build is exact exactly when a text of 512 bytes or more meets a tree that
something was added to, and no addition that matters for the text is a second one. -/
theorem search_exact_iff (unset : UInt8 → Int) (adds : List (Bytes × δ)) (sStr : Bytes)
    (sized : Sized adds) (small : sStr.length < 2 ^ 31) :
    Exact adds sStr ((addAll unset adds).adAcbmSearch sStr) ↔ Plain adds sStr := by
  obtain ⟨holds, unbuilt⟩ := addAll_holds unset sized
  by_cases rooted : adds = [] → sStr.length < 512
  · obtain ⟨iMatch, found, searched, all⟩ := search_entries holds unbuilt sized small rooted
    rw [searched]
    constructor
    · rintro ⟨iMatch', found', same, counts⟩
      obtain ⟨rfl, rfl⟩ : iMatch = iMatch' ∧ found = found' := by simpa using same
      refine ⟨rooted, fine_iff.mp fun q first stands => ?_⟩
      have sums : ∀ pData q, ((firsts adds).map (share adds sStr pData q)).sum =
          if pData ∈ dataOf adds q then occurrences q sStr else 0 := by
        intro pData q
        rw [← counts, all]
        rfl
      exact fine_of_sums sums (firsts adds).length q first (by omega) stands
    · rintro ⟨_, once⟩
      refine ⟨iMatch, found, rfl, fun pData q => ?_⟩
      rw [all]
      exact sums_of_fine (fine_iff.mpr once) pData q
  · refine iff_of_false ?_ fun plain => rooted plain.rooted
    rintro ⟨iMatch, found, searched, _⟩
    obtain ⟨rfl, long⟩ := Classical.not_imp.mp rooted
    have size : toInt32 sStr.length = sStr.length := toInt32_of_range (by omega) (by omega)
    have crash : (addAll unset ([] : List (Bytes × δ))).adAcbmSearch sStr = none := by
      have least : (addAll unset ([] : List (Bytes × δ))).iMinPtnSize = 512 := rfl
      have bare : (addAll unset ([] : List (Bytes × δ))).node [] = none := rfl
      rw [AdAcbmTree.adAcbmSearch]
      dsimp only
      rw [size, least, if_neg (by omega), bare]
      rfl
    rw [crash] at searched
    cases searched

theorem twoTexts_exact_iff :
    Exact [(ascii "ab", 1), (ascii "B", 2)] (ascii "xAB")
        ((addAll (fun _ => 0) [(ascii "ab", 1), (ascii "B", 2)]).adAcbmSearch (ascii "xAB")) ↔
      Plain [(ascii "ab", 1), (ascii "B", 2)] (ascii "xAB") :=
  search_exact_iff (fun _ => 0) [(ascii "ab", 1), (ascii "B", 2)] (ascii "xAB")
    (by unfold Sized; decide) (by decide)

/-- A pattern that was added in two spellings takes the place of the next one's text. -/
theorem secondSpelling_inexact : ¬ ∀ (adds : List (Bytes × Nat)), (∀ add ∈ adds, add.1 ≠ []) →
    ∀ sStr, Exact adds sStr ((addAll (fun _ => 0) adds).adAcbmSearch sStr) := by
  intro all
  let adds : List (Bytes × Nat) := [(ascii "a", 1), (ascii "A", 2), (ascii "bc", 3)]
  obtain ⟨iMatch, found, searched, counts⟩ := all adds (by decide) (ascii "xbc")
  have run : (addAll (fun _ => 0) adds).adAcbmSearch (ascii "xbc") =
      some (1, [⟨ascii "bc", 3, ascii "A"⟩]) := by decide +kernel
  obtain ⟨rfl, rfl⟩ : 1 = iMatch ∧ [⟨ascii "bc", 3, ascii "A"⟩] = found := by
    simpa [run] using searched
  exact absurd (counts 3 (ascii "bc")) (by decide +kernel)

end PatternSearch
