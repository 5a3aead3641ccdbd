import Mathlib.Data.List.Duplicate
import Mathlib.Tactic
import RtbAdapter.FeatureDictionary

/-!
# The order of a feature vector

A vector is sorted by id. Its ids increase strictly exactly when no id comes twice: a tag
that the user has twice counts twice, and so do two names that a dictionary from a file
gives the same id, or whose next number is taken already.
-/

namespace FeatureVectors

open Std ByteWords FeatureDictionary FeatureNames InverseMaps
open List (Duplicate)

/-- What the linear model needs. -/
def Strict (fs : List Feature) : Prop :=
  (fs.map Feature.idx).Pairwise (· < ·) ∧ ∀ f ∈ fs, 1 ≤ f.idx

instance (fs : List Feature) : Decidable (Strict fs) := inferInstanceAs (Decidable (_ ∧ _))

/-- The names in the order in which they come first. -/
def firsts : List Bytes → List Bytes
  | [] => []
  | n :: ns => n :: (firsts ns).filter (· ≠ n)

/-- The id of a name of an instance: the one it has, or else the next number when training,
and none when predicting. -/
def idOf (d : FDict) (ns : List Bytes) (createNew : Bool) (n : Bytes) : Nat :=
  match d.map[n]? with
  | some id => id
  | none =>
    if createNew then d.map.size + 1 + (firsts (ns.filter (· ∉ d.map))).idxOf n else 0

/-- A tag that is there twice has no name with an id, and no two names have the same id. -/
def Separate (d : FDict) (ins : RawInstance) (createNew : Bool) : Prop :=
  (∀ t, Duplicate t (tags ins) → ∀ n ∈ tagNames ins t, idOf d (names ins) createNew n = 0) ∧
    ∀ n ∈ names ins, ∀ m ∈ names ins, n ≠ m →
      idOf d (names ins) createNew n = idOf d (names ins) createNew m →
      idOf d (names ins) createNew n = 0

variable {d after : FDict} {ns : List Bytes} {ins : RawInstance} {createNew : Bool}

theorem firsts_filter (p : Bytes → Bool) (ns : List Bytes) :
    firsts (ns.filter p) = (firsts ns).filter p := by
  induction ns with
  | nil => rfl
  | cons n ns ih =>
    by_cases kept : p n = true
    · rw [List.filter_cons_of_pos kept, firsts, firsts, List.filter_cons_of_pos kept, ih,
        List.filter_comm]
    · rw [List.filter_cons_of_neg kept, ih, firsts, List.filter_cons_of_neg kept,
        List.filter_filter]
      refine List.filter_congr fun m _ => ?_
      by_cases same : m = n
      · simp [same, kept]
      · simp [same]

/-- A name that is learned first is numbered next, and the others after it. -/
theorem idOf_new {n m : Bytes} (new : n ∉ d.map)
    (same : after.map = d.map.insert n (d.map.size + 1)) (other : m ≠ n) :
    idOf after ns true m = idOf d (n :: ns) true m := by
  have left : ns.filter (· ∉ after.map) = (ns.filter (· ∉ d.map)).filter (· ≠ n) := by
    rw [List.filter_filter]
    refine List.filter_congr fun k _ => ?_
    simp [same, @eq_comm _ n k]
  have kept : (n :: ns).filter (· ∉ d.map) = n :: ns.filter (· ∉ d.map) :=
    List.filter_cons_of_pos (by simpa using new)
  rw [idOf, idOf, same, getElem?_insert_ne (Ne.symm other), size_new new]
  cases d.map[m]? with
  | some id => rfl
  | none =>
    simp only [if_true]
    rw [← same, left, kept, firsts_filter, firsts, List.idxOf_cons_ne _ (Ne.symm other)]
    omega

theorem idOf_known {n m : Bytes} (known : n ∈ d.map) :
    idOf d (n :: ns) createNew m = idOf d ns createNew m := by
  have dropped : (n :: ns).filter (· ∉ d.map) = ns.filter (· ∉ d.map) :=
    List.filter_cons_of_neg (by simpa using known)
  rw [idOf, idOf, dropped]

theorem idOf_first {n : Bytes} (new : n ∉ d.map) : idOf d (n :: ns) true n = d.map.size + 1 := by
  have kept : (n :: ns).filter (· ∉ d.map) = n :: ns.filter (· ∉ d.map) :=
    List.filter_cons_of_pos (by simpa using new)
  rw [idOf, TreeMap.getElem?_eq_none new, kept, firsts, List.idxOf_cons_self]
  rfl

theorem idOf_predict {n : Bytes} : idOf d ns false n = d.map[n]?.getD 0 := by
  rw [idOf]
  cases d.map[n]? with
  | none => rfl
  | some id => rfl

/-- After training every name of the instance has its id. -/
theorem fold_ids {fs fs' : List Feature}
    (folded : ns.foldlM (appendFeature true) (fs, d) = some (fs', after)) :
    ∀ n ∈ ns, after.map[n]? = some (idOf d ns true n) := by
  induction ns generalizing fs d with
  | nil => simp
  | cons n ns ih =>
    rw [List.foldlM_cons] at folded
    obtain ⟨⟨fs₁, d₁⟩, appended, rest⟩ := Option.bind_eq_some_iff.mp folded
    obtain ⟨fid, got, rfl⟩ := appendFeature_some appended
    have found := (fold_train rest).1.keeps n fid (getFeatureId_grows got).2
    intro m inside
    rcases getFeatureId_cases got with ⟨old, rfl⟩ | ⟨new, _, rfl, same⟩ | ⟨_, off, _⟩
    · by_cases this : m = n
      · subst this
        rw [found, idOf, old]
      · rw [ih rest m ((List.mem_cons.mp inside).resolve_left this),
          idOf_known (mem_map.mpr ⟨fid, old⟩)]
    · by_cases this : m = n
      · subst this
        rw [found, idOf_first new]
      · rw [ih rest m ((List.mem_cons.mp inside).resolve_left this), idOf_new new same this]
    · cases off

/-- The ids of a vector are those of the names, in order of size and without zeros. -/
theorem extract_idOf {fs : List Feature}
    (extracted : extractFeatures d ins createNew = some (fs, after)) :
    fs.map Feature.idx = (((names ins).map (idOf d (names ins) createNew)).filter
      (· ≠ 0)).mergeSort (· ≤ ·) := by
  rw [extract_ids extracted, idsIn]
  congr 2
  refine List.map_congr_left fun n inside => ?_
  rw [extractFeatures] at extracted
  obtain ⟨⟨fs', d'⟩, folded, same⟩ := Option.map_eq_some_iff.mp extracted
  obtain ⟨rfl, rfl⟩ := Prod.mk.inj same
  cases createNew with
  | false =>
    obtain ⟨fs'', folded', _⟩ := fold_predict d (names ins) []
    obtain ⟨_, unchanged⟩ := Prod.mk.inj (Option.some.inj (folded.symm.trans folded'))
    rw [unchanged, idOf_predict]
  | true => rw [fold_ids folded n inside, Option.getD_some]

/-- Elements with a value have different values, as far as they come. -/
theorem pairwise_iff {α : Type} {l : List α} {f : α → Nat} :
    (l.Pairwise fun a b => f a ≠ 0 → f b ≠ 0 → f a ≠ f b) ↔
      (∀ a, Duplicate a l → f a = 0) ∧
        ∀ a ∈ l, ∀ b ∈ l, a ≠ b → f a = f b → f a = 0 := by
  constructor
  · intro apart
    constructor
    · intro a twice
      by_contra some'
      have two := apart.sublist (List.duplicate_iff_sublist.mp twice)
      exact List.pairwise_pair.mp two some' some' rfl
    · intro a inside b inside' other same
      by_contra some'
      have symmetric : Std.Symm fun a b => f a ≠ 0 → f b ≠ 0 → f a ≠ f b :=
        ⟨fun _ _ differ one two equal => differ two one equal.symm⟩
      exact apart.forall inside inside' other some' (same ▸ some') same
  · rintro ⟨twice, apart⟩
    induction l with
    | nil => exact List.Pairwise.nil
    | cons a l ih =>
      refine List.pairwise_cons.mpr ⟨fun b inside some' _ same => some' ?_, ?_⟩
      · by_cases equal : a = b
        · subst equal
          exact twice a (List.Mem.duplicate_cons_self inside)
        · exact apart a (by simp) b (by simp [inside]) equal same
      · exact ih (fun b twice' => twice b (twice'.duplicate_cons a))
          fun b inside c inside' => apart b (by simp [inside]) c (by simp [inside'])

theorem increasing_iff {l : List Nat} : (l.mergeSort (· ≤ ·)).Pairwise (· < ·) ↔ l.Nodup := by
  have sorted : (l.mergeSort (· ≤ ·)).Pairwise (· ≤ ·) := List.pairwise_mergeSort' _ l
  rw [← (List.mergeSort_perm l (· ≤ ·)).nodup_iff]
  constructor
  · exact fun increasing => increasing.imp fun less => less.ne
  · exact fun apart => sorted.imp₂ (fun _ _ le ne => Nat.lt_of_le_of_ne le ne) apart

/-- A vector is strictly ordered exactly when its names are separate. -/
theorem strict_iff {fs : List Feature}
    (extracted : extractFeatures d ins createNew = some (fs, after)) :
    Strict fs ↔ Separate d ins createNew := by
  have ids := extract_idOf extracted
  have positive : ∀ f ∈ fs, 1 ≤ f.idx := by
    intro f inside
    have member : f.idx ∈ fs.map Feature.idx := List.mem_map_of_mem inside
    rw [ids, List.mem_mergeSort, List.mem_filter] at member
    exact Nat.one_le_iff_ne_zero.mpr (by simpa using member.2)
  rw [Strict, and_iff_left positive, ids, increasing_iff, List.Nodup, List.pairwise_filter,
    List.pairwise_map]
  simp only [decide_eq_true_eq]
  rw [pairwise_iff, Separate]
  refine and_congr_left fun _ =>
    ⟨fun twice t tag n inside => twice n (duplicate_tagNames tag inside),
    fun twice n both => ?_⟩
  obtain ⟨t, tag, inside⟩ := duplicate_names both
  exact twice t tag n inside

/-- A user with the tag a twice. -/
def doubled : RawInstance := { visit "www.x.com" with userTags := ascii "a|a" }

/-- A vector and a dictionary, or none. -/
def vectorOf (d : FDict) (ins : RawInstance) (createNew : Bool) : List Feature × FDict :=
  (extractFeatures d ins createNew).getD ([], .empty)

theorem vectorOf_extracted (some' : (extractFeatures d ins createNew).isSome) :
    extractFeatures d ins createNew =
      some ((vectorOf d ins createNew).1, (vectorOf d ins createNew).2) := by
  obtain ⟨both, extracted⟩ := Option.isSome_iff_exists.mp some'
  rw [vectorOf, extracted, Option.getD_some]

theorem visit_strict : Strict (vectorOf .empty (visit "www.x.com") true).1 ↔
    Separate .empty (visit "www.x.com") true :=
  strict_iff (vectorOf_extracted (by decide +kernel))

/-- The tag counts twice, in training and in every prediction after it. -/
theorem doubled_tag : ¬ Strict (vectorOf .empty doubled true).1 ∧
    ¬ Strict (vectorOf (vectorOf .empty doubled true).2 doubled false).1 := by
  have twice {d : FDict} {createNew : Bool} (some' : (extractFeatures d doubled createNew).isSome)
      (claim : Strict (vectorOf d doubled createNew).1) :
      (idsIn (vectorOf d doubled createNew).2 (names doubled)).Nodup := by
    rw [← increasing_iff, ← extract_ids (vectorOf_extracted some')]
    exact claim.1
  exact ⟨fun claim => absurd (twice (by decide +kernel) claim) (by decide +kernel),
    fun claim => absurd (twice (by decide +kernel) claim) (by decide +kernel)⟩

theorem mem_names_of_tag {t n : Bytes} (twice : Duplicate t (tags ins))
    (inside : n ∈ tagNames ins t) : n ∈ names ins :=
  (duplicate_tagNames twice inside).mem

/-- In training the tags alone decide. -/
theorem trained_strict (kept : Numbered d) {fs : List Feature}
    (extracted : extractForTrain d ins = some (fs, after)) :
    Strict fs ↔ (tags ins).Nodup := by
  have kept' := (extract_grows extracted).numbered kept
  have ids (n : Bytes) (inside : n ∈ names ins) :
      after.map[n]? = some (idOf d (names ins) true n) := by
    obtain ⟨⟨fs', d'⟩, folded, same⟩ := Option.map_eq_some_iff.mp extracted
    obtain ⟨_, rfl⟩ := Prod.mk.inj same
    exact fold_ids folded n inside
  rw [strict_iff extracted, Separate, and_iff_left, List.nodup_iff_forall_not_duplicate]
  · constructor
    · intro none t twice
      have first : name (.utag, t) ∈ tagNames ins t := List.mem_cons_self
      have range := kept'.range _ _ (ids _ (mem_names_of_tag twice first))
      exact absurd (none t twice _ first) (by omega)
    · exact fun apart t twice => absurd twice (apart t)
  · intro n inside m inside' other same
    refine absurd (kept'.injective n m _ (ids n inside) ?_) other
    rw [ids m inside', same]

/-- In a prediction a tag may come twice when training has not seen its names. -/
theorem predicted_strict (kept : Numbered d) {fs : List Feature}
    (extracted : extractForPredict d ins = some (fs, after)) :
    Strict fs ↔ ∀ t, Duplicate t (tags ins) → ∀ n ∈ tagNames ins t, n ∉ d.map := by
  have zero (n : Bytes) : idOf d (names ins) false n = 0 ↔ n ∉ d.map := by
    rw [idOf_predict, mem_map]
    cases found : d.map[n]? with
    | none => simp
    | some id =>
      have range := kept.range n id found
      simp only [Option.getD_some, Option.some.injEq, exists_eq', not_true, iff_false]
      omega
  rw [strict_iff extracted, Separate, and_iff_left]
  · simp only [zero]
  · intro n _ m _ other same
    rw [zero, mem_map]
    rintro ⟨id, found⟩
    have range := kept.range n id found
    rw [idOf_predict, idOf_predict, found, Option.getD_some] at same
    cases found' : d.map[m]? with
    | none =>
      rw [found', Option.getD_none] at same
      omega
    | some id' =>
      rw [found', Option.getD_some] at same
      exact other (kept.injective n m id found (same ▸ found'))

end FeatureVectors
