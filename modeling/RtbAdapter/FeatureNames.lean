import Mathlib.Data.List.Duplicate
import Mathlib.Tactic
import RtbAdapter.ByteWords
import RtbAdapter.TextPieces

/-!
# The feature names of an instance

A name is a type, a colon and a text. The texts are the fields of the instance, shortened
forms of the region and of the host, the tags, and their crossings. Only a tag that is
there twice gives a name twice.
-/

namespace FeatureNames

open ByteWords TextPieces
open List (Duplicate)

structure RawInstance where
  region : Bytes
  os : Bytes
  userTags : Bytes
  host : Bytes
  pageType : Bytes
  pid : Bytes
  viewScreen : Bytes
  adverId : Bytes
  deriving DecidableEq

inductive FeatureType where
  | common | region | utag | host | pid | cb | aid
  deriving DecidableEq

def FeatureType.word : FeatureType → Bytes
  | common => ascii "common"
  | region => ascii "region"
  | utag => ascii "utag"
  | host => ascii "host"
  | pid => ascii "pid"
  | cb => ascii "cb"
  | aid => ascii "aid"

/-- The characters between the parts of a text. -/
def dash : UInt8 := 45
def dot : UInt8 := 46
def colon : UInt8 := 58
def at' : UInt8 := 64
def bar : UInt8 := 124

/-- `_split_by_sep`. -/
def splitBySep (s : Bytes) (sep : UInt8) : List Bytes := pieces sep s

/-- The province of a region of more than two parts. -/
def province (region : Bytes) : List Bytes :=
  match splitBySep region dash with
  | p :: q :: _ :: _ => [p ++ at' :: q]
  | _ => []

/-- The last two parts of a host of more than two. -/
def subDomain (host : Bytes) : List Bytes :=
  match (splitBySep host dot).reverse with
  | q :: p :: _ :: _ => [p ++ at' :: q]
  | _ => []

def regionTexts (ins : RawInstance) : List Bytes := ins.region :: province ins.region

def hostTexts (ins : RawInstance) : List Bytes := ins.host :: subDomain ins.host

def tags (ins : RawInstance) : List Bytes := splitBySep ins.userTags bar

def regionVec (ins : RawInstance) : List Bytes := (regionTexts ins).map (ascii "r" ++ ·)

def tagVec (ins : RawInstance) : List Bytes := (tags ins).map (ascii "ut" ++ ·)

def hostVec (ins : RawInstance) : List Bytes := (hostTexts ins).map (ascii "h" ++ ·)

def pidVec (ins : RawInstance) : List Bytes := [ascii "p" ++ ins.pid]

/-- The pairs that are crossed, in order. -/
def crossings (ins : RawInstance) : List (Bytes × Bytes) :=
  (regionVec ins).flatMap (fun r => (tagVec ins ++ hostVec ins ++ pidVec ins).map (r, ·)) ++
    (hostVec ins).flatMap fun h => (pidVec ins).map (h, ·)

def crossed (pair : Bytes × Bytes) : Bytes := pair.1 ++ colon :: pair.2

/-- The types and texts of the features, in the order in which they are appended. -/
def features (ins : RawInstance) : List (FeatureType × Bytes) :=
  [(.common, ascii "all_feature")] ++ (regionTexts ins).map (.region, ·) ++
    (tags ins).map (.utag, ·) ++ (hostTexts ins).map (.host, ·) ++ [(.pid, ins.pid)] ++
    (crossings ins).map (fun pair => (.cb, crossed pair)) ++ [(.aid, ins.adverId)]

def name (feature : FeatureType × Bytes) : Bytes := feature.1.word ++ colon :: feature.2

def names (ins : RawInstance) : List Bytes := (features ins).map name

/-- The names that a tag gives. -/
def tagNames (ins : RawInstance) (t : Bytes) : List Bytes :=
  name (.utag, t) :: (regionVec ins).map fun r => name (.cb, crossed (r, ascii "ut" ++ t))

section Duplicates

variable {α β : Type} {l m : List α} {x : α}

theorem duplicate_append [DecidableEq α] :
    Duplicate x (l ++ m) ↔ Duplicate x l ∨ Duplicate x m ∨ x ∈ l ∧ x ∈ m := by
  rw [List.duplicate_iff_two_le_count, List.duplicate_iff_two_le_count,
    List.duplicate_iff_two_le_count, List.count_append, ← List.one_le_count_iff,
    ← List.one_le_count_iff]
  omega

/-- What an injective map shows twice is there twice. -/
theorem duplicate_map {f : α → β} {y : β} (injective : ∀ a ∈ l, ∀ b ∈ l, f a = f b → a = b)
    (twice : Duplicate y (l.map f)) : ∃ x, Duplicate x l ∧ f x = y := by
  rw [List.duplicate_iff_sublist, List.sublist_map_iff] at twice
  obtain ⟨two, inside, same⟩ := twice
  obtain ⟨a, one, rfl, first, same⟩ := List.map_eq_cons_iff.mp same.symm
  obtain ⟨b, none, rfl, second, same⟩ := List.map_eq_cons_iff.mp same
  obtain rfl := List.map_eq_nil_iff.mp same
  have equal : a = b := injective a (inside.subset (by simp)) b (inside.subset (by simp))
    (first.trans second.symm)
  exact ⟨a, List.duplicate_iff_sublist.mpr (equal ▸ inside), first⟩

theorem duplicate_of_map {f : α → β} (twice : Duplicate x l) : Duplicate (f x) (l.map f) := by
  rw [List.duplicate_iff_sublist] at twice ⊢
  exact twice.map f

theorem duplicate_filter [DecidableEq α] {p : α → Bool} (twice : Duplicate x l) (kept : p x) :
    Duplicate x (l.filter p) := by
  rw [List.duplicate_iff_two_le_count] at twice ⊢
  rwa [List.count_filter kept]

theorem mem_pairs {pair : α × β} {ls : List α} {ms : List β} :
    pair ∈ ls.flatMap (fun a => ms.map (a, ·)) ↔ pair.1 ∈ ls ∧ pair.2 ∈ ms := by
  obtain ⟨a, b⟩ := pair
  exact List.mem_product

/-- In a product only the second half can be there twice. -/
theorem duplicate_product [DecidableEq α] [DecidableEq β] {pair : α × β} {ls : List α}
    {ms : List β} (apart : ls.Nodup)
    (twice : Duplicate pair (ls.flatMap fun a => ms.map (a, ·))) :
    pair.1 ∈ ls ∧ Duplicate pair.2 ms := by
  induction ls with
  | nil => exact absurd twice.mem (by simp)
  | cons a ls ih =>
    rw [List.nodup_cons] at apart
    rw [List.flatMap_cons, duplicate_append] at twice
    rcases twice with here | there | ⟨here, there⟩
    · obtain ⟨b, twice, rfl⟩ := duplicate_map (fun _ _ _ _ same => (Prod.mk.inj same).2) here
      exact ⟨by simp, twice⟩
    · obtain ⟨inside, twice⟩ := ih apart.2 there
      exact ⟨List.mem_cons_of_mem _ inside, twice⟩
    · obtain ⟨b, _, rfl⟩ := List.mem_map.mp here
      obtain ⟨a', inside, there⟩ := List.mem_flatMap.mp there
      obtain ⟨_, _, same⟩ := List.mem_map.mp there
      exact absurd ((Prod.mk.inj same).1 ▸ inside) apart.1

end Duplicates

variable {ins : RawInstance}

theorem word_clean (type : FeatureType) : colon ∉ type.word := by cases type <;> decide

theorem word_injective {type type' : FeatureType} (same : type.word = type'.word) :
    type = type' := by
  revert same
  cases type <;> cases type' <;> decide

theorem name_injective : Function.Injective name := by
  rintro ⟨type, text⟩ ⟨type', text'⟩ same
  have words : type.word = type'.word := by
    have fronts := congrArg (pieces colon) same
    rw [name, name, pieces_cons (word_clean type), pieces_cons (word_clean type')] at fronts
    exact (List.cons.inj fronts).1
  obtain rfl := word_injective words
  have texts : text = text' := (List.cons.inj (List.append_cancel_left same)).2
  rw [texts]

theorem eq_of_short {l : List Bytes} (short : l.length ≤ 1) {a b : Bytes} (one : a ∈ l)
    (two : b ∈ l) : a = b := by
  match l with
  | [c] => rw [List.mem_singleton.mp one, List.mem_singleton.mp two]

theorem nodup_of_short {l : List Bytes} (short : l.length ≤ 1) : l.Nodup := by
  rw [List.nodup_iff_count_le_one]
  exact fun a => List.count_le_length.trans short

/-- The region and its province part at the first dash. -/
theorem province_fork {p : Bytes} (short : p ∈ province ins.region) :
    ∃ a q t, p = a ++ at' :: q ∧ ins.region = a ++ dash :: t := by
  rw [province] at short
  split at short
  · next p q r rest parts =>
    obtain ⟨t, whole, _⟩ := pieces_front (by simp) parts
    exact ⟨p, q, t, List.mem_singleton.mp short, whole⟩
  · cases short

theorem province_length : (province ins.region).length ≤ 1 := by
  rw [province]
  split <;> simp

/-- Two texts of a region are the same if they begin the same way. -/
theorem regionTexts_append {t t' u v : Bytes} (one : t ∈ regionTexts ins)
    (two : t' ∈ regionTexts ins) (same : t ++ u = t' ++ v) : t = t' := by
  have fork {p u v : Bytes} (short : p ∈ province ins.region) : p ++ u ≠ ins.region ++ v := by
    obtain ⟨a, q, t, rfl, whole⟩ := province_fork short
    rw [whole, List.append_assoc, List.append_assoc, ne_eq, List.append_cancel_left_eq]
    exact fun same => absurd (List.cons.inj same).1 (by decide)
  rcases List.mem_cons.mp one with rfl | short
  · rcases List.mem_cons.mp two with rfl | short'
    · rfl
    · exact absurd same.symm (fork short')
  · rcases List.mem_cons.mp two with rfl | short'
    · exact absurd same (fork short)
    · exact eq_of_short province_length short short'

theorem subDomain_ne {d : Bytes} (short : d ∈ subDomain ins.host) : d ≠ ins.host := by
  rw [subDomain] at short
  split at short
  · next q p r rest parts =>
    have inside : ∀ part ∈ (splitBySep ins.host dot).reverse, dot ∉ part := fun part member =>
      pieces_notMem part (List.mem_reverse.mp member)
    rw [parts] at inside
    have away : dot ∉ d := by
      rw [List.mem_singleton.mp short, List.mem_append, List.mem_cons, not_or, not_or]
      exact ⟨inside p (by simp), by decide, inside q (by simp)⟩
    have cut : splitBySep ins.host dot = rest.reverse ++ [r, p, q] := by
      rw [← List.reverse_reverse (splitBySep ins.host dot), parts]
      simp
    obtain ⟨first, others, parts'⟩ : ∃ first others, rest.reverse ++ [r, p, q] =
        first :: others ∧ others ≠ [] := by
      cases rest.reverse with
      | nil => exact ⟨r, [p, q], rfl, by simp⟩
      | cons first others => exact ⟨first, others ++ [r, p, q], rfl, by simp⟩
    obtain ⟨t, whole, _⟩ := pieces_front parts'.2 (cut.trans parts'.1)
    rintro rfl
    exact away (whole ▸ by simp)
  · cases short

theorem subDomain_length : (subDomain ins.host).length ≤ 1 := by
  rw [subDomain]
  split <;> simp

/-- Hosts differ as texts. -/
theorem hostTexts_nodup : (hostTexts ins).Nodup := by
  rw [hostTexts, List.nodup_cons]
  refine ⟨fun inside => subDomain_ne inside rfl, ?_⟩
  exact nodup_of_short subDomain_length

theorem regionTexts_nodup : (regionTexts ins).Nodup := by
  rw [regionTexts, List.nodup_cons]
  constructor
  · intro inside
    obtain ⟨a, q, t, short, whole⟩ := province_fork inside
    rw [whole] at short
    exact absurd (List.cons.inj (List.append_cancel_left short)).1 (by decide)
  · exact nodup_of_short province_length

/-- What stands behind a colon tells the crossings of a region apart. -/
theorem crossed_region {r r' x x' : Bytes} (one : r ∈ regionVec ins) (two : r' ∈ regionVec ins)
    (same : crossed (r, x) = crossed (r', x')) : r = r' ∧ x = x' := by
  obtain ⟨t, inside, rfl⟩ := List.mem_map.mp one
  obtain ⟨t', inside', rfl⟩ := List.mem_map.mp two
  rw [crossed, crossed, List.append_assoc, List.append_assoc, List.append_cancel_left_eq] at same
  obtain rfl := regionTexts_append inside inside' same
  exact ⟨rfl, (List.cons.inj (List.append_cancel_left same)).2⟩

theorem crossed_ne {r h x y : Bytes} (one : r ∈ regionVec ins) (two : h ∈ hostVec ins) :
    crossed (r, x) ≠ crossed (h, y) := by
  obtain ⟨t, _, rfl⟩ := List.mem_map.mp one
  obtain ⟨t', _, rfl⟩ := List.mem_map.mp two
  exact fun same => absurd (List.cons.inj same).1 (by decide)

theorem mem_crossings {pair : Bytes × Bytes} :
    pair ∈ crossings ins ↔
      pair.1 ∈ regionVec ins ∧ pair.2 ∈ tagVec ins ++ hostVec ins ++ pidVec ins ∨
        pair.1 ∈ hostVec ins ∧ pair.2 ∈ pidVec ins := by
  rw [crossings, List.mem_append]
  exact or_congr mem_pairs mem_pairs

theorem crossed_injective : ∀ a ∈ crossings ins, ∀ b ∈ crossings ins,
    crossed a = crossed b → a = b := by
  rintro ⟨r, x⟩ one ⟨r', x'⟩ two same
  rcases mem_crossings.mp one with ⟨left, _⟩ | ⟨left, right⟩
  · rcases mem_crossings.mp two with ⟨left', _⟩ | ⟨left', _⟩
    · obtain ⟨rfl, rfl⟩ := crossed_region left left' same
      rfl
    · exact absurd same (crossed_ne left left')
  · rcases mem_crossings.mp two with ⟨left', _⟩ | ⟨_, right'⟩
    · exact absurd same.symm (crossed_ne left' left)
    · rw [pidVec, List.mem_singleton] at right right'
      subst right right'
      have hosts : r = r' := List.append_cancel_right same
      rw [hosts]

theorem hostVec_nodup : (hostVec ins).Nodup :=
  hostTexts_nodup.map fun _ _ same => List.append_cancel_left same

theorem regionVec_nodup : (regionVec ins).Nodup :=
  regionTexts_nodup.map fun _ _ same => List.append_cancel_left same

/-- Of what the region is crossed with, only a tag can come twice. -/
theorem duplicate_partner {x : Bytes}
    (twice : Duplicate x (tagVec ins ++ hostVec ins ++ pidVec ins)) :
    ∃ t, Duplicate t (tags ins) ∧ ascii "ut" ++ t = x := by
  rw [duplicate_append, duplicate_append] at twice
  rcases twice with (tag | host | ⟨tag, host⟩) | pid | ⟨other, pid⟩
  · exact duplicate_map (fun _ _ _ _ same => List.append_cancel_left same) tag
  · exact absurd hostVec_nodup host.not_nodup
  · obtain ⟨t, _, rfl⟩ := List.mem_map.mp tag
    obtain ⟨h, _, same⟩ := List.mem_map.mp host
    exact absurd (List.cons.inj same).1 (by decide)
  · exact absurd pid (List.not_duplicate_singleton x _)
  · obtain rfl := List.mem_singleton.mp pid
    rcases List.mem_append.mp other with tag | host
    · obtain ⟨t, _, same⟩ := List.mem_map.mp tag
      exact absurd (List.cons.inj same).1 (by decide)
    · obtain ⟨h, _, same⟩ := List.mem_map.mp host
      exact absurd (List.cons.inj same).1 (by decide)

theorem duplicate_crossings {pair : Bytes × Bytes} (twice : Duplicate pair (crossings ins)) :
    ∃ t, Duplicate t (tags ins) ∧ ∃ r ∈ regionVec ins, (r, ascii "ut" ++ t) = pair := by
  rw [crossings, duplicate_append] at twice
  rcases twice with region | host | ⟨region, host⟩
  · obtain ⟨member, partner⟩ := duplicate_product regionVec_nodup region
    obtain ⟨t, twice, same⟩ := duplicate_partner partner
    exact ⟨t, twice, pair.1, member, by rw [same]⟩
  · obtain ⟨_, pid⟩ := duplicate_product hostVec_nodup host
    exact absurd pid (List.not_duplicate_singleton _ _)
  · have one := (mem_pairs.mp region).1
    have two := (mem_pairs.mp host).1
    obtain ⟨t, _, same⟩ := List.mem_map.mp one
    obtain ⟨h, _, same'⟩ := List.mem_map.mp two
    exact absurd (List.cons.inj (same.trans same'.symm)).1 (by decide)

/-- The texts of the features of one type, in order. -/
def textsOf (ins : RawInstance) : FeatureType → List Bytes
  | .common => [ascii "all_feature"]
  | .region => regionTexts ins
  | .utag => tags ins
  | .host => hostTexts ins
  | .pid => [ins.pid]
  | .cb => (crossings ins).map crossed
  | .aid => [ins.adverId]

theorem features_filter (type : FeatureType) :
    (features ins).filter (fun f => f.1 = type) = (textsOf ins type).map (type, ·) := by
  cases type <;> simp [features, textsOf, List.filter_append, List.filter_map, Function.comp_def]

theorem duplicate_texts {type : FeatureType} {text : Bytes}
    (twice : Duplicate (type, text) (features ins)) : Duplicate text (textsOf ins type) := by
  have filtered := duplicate_filter (p := fun f => decide (f.1 = type)) twice (by simp)
  rw [features_filter] at filtered
  obtain ⟨text', twice, same⟩ := duplicate_map (fun _ _ _ _ same => (Prod.mk.inj same).2) filtered
  rwa [← (Prod.mk.inj same).2]

/-- A name that comes twice is one of a tag that does. -/
theorem duplicate_names {n : Bytes} (twice : Duplicate n (names ins)) :
    ∃ t, Duplicate t (tags ins) ∧ n ∈ tagNames ins t := by
  obtain ⟨⟨type, text⟩, both, rfl⟩ := duplicate_map (fun _ _ _ _ same => name_injective same) twice
  have texts := duplicate_texts both
  cases type with
  | utag => exact ⟨text, texts, List.mem_cons_self⟩
  | cb =>
    obtain ⟨pair, pairs, rfl⟩ := duplicate_map crossed_injective texts
    obtain ⟨t, tag, r, member, rfl⟩ := duplicate_crossings pairs
    exact ⟨t, tag, List.mem_cons_of_mem _ (List.mem_map_of_mem member)⟩
  | region => exact absurd regionTexts_nodup texts.not_nodup
  | host => exact absurd hostTexts_nodup texts.not_nodup
  | common => exact absurd texts (List.not_duplicate_singleton _ _)
  | pid => exact absurd texts (List.not_duplicate_singleton _ _)
  | aid => exact absurd texts (List.not_duplicate_singleton _ _)

theorem duplicate_of_texts (type : FeatureType) {text : Bytes}
    (twice : Duplicate text (textsOf ins type)) : Duplicate (name (type, text)) (names ins) := by
  have filtered : Duplicate (type, text) ((features ins).filter (fun f => f.1 = type)) := by
    rw [features_filter]
    exact duplicate_of_map twice
  exact duplicate_of_map (filtered.mono_sublist List.filter_sublist)

/-- The names of a tag that comes twice come twice. -/
theorem duplicate_tagNames {t n : Bytes} (twice : Duplicate t (tags ins))
    (inside : n ∈ tagNames ins t) : Duplicate n (names ins) := by
  rcases List.mem_cons.mp inside with rfl | crossing
  · exact duplicate_of_texts .utag twice
  · obtain ⟨r, member, rfl⟩ := List.mem_map.mp crossing
    refine duplicate_of_texts .cb (duplicate_of_map ?_)
    rw [crossings, duplicate_append]
    refine .inl (List.Duplicate.mono_sublist ?_ (List.sublist_flatten_of_mem
      (List.mem_map_of_mem member)))
    refine duplicate_of_map ?_
    rw [duplicate_append, duplicate_append]
    exact .inl (.inl (duplicate_of_map twice))

/-- The fields that give names have the character. -/
def Holds (ins : RawInstance) (b : UInt8) : Prop :=
  b ∈ ins.region ∨ b ∈ ins.userTags ∨ b ∈ ins.host ∨ b ∈ ins.pid ∨ b ∈ ins.adverId

instance (ins : RawInstance) (b : UInt8) : Decidable (Holds ins b) :=
  inferInstanceAs (Decidable (_ ∨ _))

theorem mem_features {f : FeatureType × Bytes} : f ∈ features ins ↔ f.2 ∈ textsOf ins f.1 := by
  obtain ⟨type, text⟩ := f
  have filtered : (type, text) ∈ features ins ↔
      (type, text) ∈ (features ins).filter (fun f => f.1 = type) := by simp
  rw [filtered, features_filter]
  simp

theorem visible_all : ∀ c ∈ ascii "all_feature", 32 ≤ c := by decide +kernel

section Characters

variable {b : UInt8} (blank : b < 32)
include blank

theorem ne_of_blank {c : UInt8} (visible : 32 ≤ c) : b ≠ c := by
  rintro rfl
  exact absurd blank (UInt8.not_lt.mpr visible)

theorem regionTexts_holds {t : Bytes} (text : t ∈ regionTexts ins) (inside : b ∈ t) :
    b ∈ ins.region := by
  rcases List.mem_cons.mp text with rfl | short
  · exact inside
  · rw [province] at short
    split at short
    · next p q r rest parts =>
      refine (mem_pieces (ne_of_blank blank (c := dash) (by decide))).mp ?_
      change ∃ part ∈ splitBySep ins.region dash, b ∈ part
      rw [parts]
      rw [List.mem_singleton.mp short, List.mem_append, List.mem_cons] at inside
      rcases inside with first | rfl | second
      · exact ⟨p, by simp, first⟩
      · exact absurd blank (by decide)
      · exact ⟨q, by simp, second⟩
    · cases short

theorem hostTexts_holds {t : Bytes} (text : t ∈ hostTexts ins) (inside : b ∈ t) :
    b ∈ ins.host := by
  rcases List.mem_cons.mp text with rfl | short
  · exact inside
  · rw [subDomain] at short
    split at short
    · next q p r rest parts =>
      refine (mem_pieces (ne_of_blank blank (c := dot) (by decide))).mp ?_
      have member (part : Bytes) : part ∈ splitBySep ins.host dot ↔ part ∈ q :: p :: r :: rest := by
        rw [← parts, List.mem_reverse]
      rw [List.mem_singleton.mp short, List.mem_append, List.mem_cons] at inside
      rcases inside with first | rfl | second
      · exact ⟨p, (member p).mpr (by simp), first⟩
      · exact absurd blank (by decide)
      · exact ⟨q, (member q).mpr (by simp), second⟩
    · cases short

theorem tags_holds : (∃ t ∈ tags ins, b ∈ t) ↔ b ∈ ins.userTags :=
  mem_pieces (ne_of_blank blank (by decide))

/-- A text in front of which only visible characters stand. -/
theorem mem_visible {w t : Bytes} (visible : ∀ c ∈ w, 32 ≤ c) : b ∈ w ++ t ↔ b ∈ t := by
  rw [List.mem_append, or_iff_right]
  exact fun inside => ne_of_blank blank (visible b inside) rfl

theorem mem_colon {t : Bytes} : b ∈ colon :: t ↔ b ∈ t := by
  rw [List.mem_cons, or_iff_right (ne_of_blank blank (by decide))]

theorem mem_name {f : FeatureType × Bytes} : b ∈ name f ↔ b ∈ f.2 := by
  rw [name, mem_visible blank (by cases f.1 <;> decide +kernel), mem_colon blank]

theorem mem_crossed {pair : Bytes × Bytes} : b ∈ crossed pair ↔ b ∈ pair.1 ∨ b ∈ pair.2 := by
  rw [crossed, List.mem_append, mem_colon blank]

theorem regionVec_holds {r : Bytes} (member : r ∈ regionVec ins) (inside : b ∈ r) :
    b ∈ ins.region := by
  obtain ⟨t, text, rfl⟩ := List.mem_map.mp member
  exact regionTexts_holds blank text ((mem_visible blank (by decide +kernel)).mp inside)

theorem hostVec_holds {h : Bytes} (member : h ∈ hostVec ins) (inside : b ∈ h) : b ∈ ins.host := by
  obtain ⟨t, text, rfl⟩ := List.mem_map.mp member
  exact hostTexts_holds blank text ((mem_visible blank (by decide +kernel)).mp inside)

theorem tagVec_holds {x : Bytes} (member : x ∈ tagVec ins) (inside : b ∈ x) :
    b ∈ ins.userTags := by
  obtain ⟨t, text, rfl⟩ := List.mem_map.mp member
  exact (tags_holds blank).mp ⟨t, text, (mem_visible blank (by decide +kernel)).mp inside⟩

theorem pidVec_holds {x : Bytes} (member : x ∈ pidVec ins) (inside : b ∈ x) : b ∈ ins.pid := by
  rw [List.mem_singleton.mp member] at inside
  exact (mem_visible blank (by decide +kernel)).mp inside

theorem crossings_holds {pair : Bytes × Bytes} (member : pair ∈ crossings ins)
    (inside : b ∈ crossed pair) : Holds ins b := by
  rcases mem_crossings.mp member with ⟨region, partner⟩ | ⟨host, pid⟩
  · rcases (mem_crossed blank).mp inside with first | second
    · exact .inl (regionVec_holds blank region first)
    · rcases List.mem_append.mp partner with partner | pid
      · rcases List.mem_append.mp partner with tag | host
        · exact .inr (.inl (tagVec_holds blank tag second))
        · exact .inr (.inr (.inl (hostVec_holds blank host second)))
      · exact .inr (.inr (.inr (.inl (pidVec_holds blank pid second))))
  · rcases (mem_crossed blank).mp inside with first | second
    · exact .inr (.inr (.inl (hostVec_holds blank host first)))
    · exact .inr (.inr (.inr (.inl (pidVec_holds blank pid second))))

theorem textsOf_holds {type : FeatureType} {text : Bytes} (member : text ∈ textsOf ins type)
    (inside : b ∈ text) : Holds ins b := by
  cases type with
  | common =>
    rw [List.mem_singleton.mp member] at inside
    exact absurd inside fun inside => ne_of_blank blank (visible_all b inside) rfl
  | region => exact .inl (regionTexts_holds blank member inside)
  | utag => exact .inr (.inl ((tags_holds blank).mp ⟨text, member, inside⟩))
  | host => exact .inr (.inr (.inl (hostTexts_holds blank member inside)))
  | pid => exact .inr (.inr (.inr (.inl (List.mem_singleton.mp member ▸ inside))))
  | cb =>
    obtain ⟨pair, pairs, rfl⟩ := List.mem_map.mp member
    exact crossings_holds blank pairs inside
  | aid => exact .inr (.inr (.inr (.inr (List.mem_singleton.mp member ▸ inside))))

/-- A control character is in a name exactly when it is in a field. -/
theorem names_hold : (∃ n ∈ names ins, b ∈ n) ↔ Holds ins b := by
  constructor
  · rintro ⟨n, member, inside⟩
    obtain ⟨f, listed, rfl⟩ := List.mem_map.mp member
    exact textsOf_holds blank (mem_features.mp listed) ((mem_name blank).mp inside)
  · have named (type : FeatureType) {text : Bytes} (member : text ∈ textsOf ins type)
        (inside : b ∈ text) : ∃ n ∈ names ins, b ∈ n :=
      ⟨_, List.mem_map_of_mem (mem_features.mpr member : (type, text) ∈ features ins),
        (mem_name blank).mpr inside⟩
    rintro (inside | inside | inside | inside | inside)
    · exact named .region List.mem_cons_self inside
    · obtain ⟨t, member, inside⟩ := (tags_holds blank).mpr inside
      exact named .utag member inside
    · exact named .host List.mem_cons_self inside
    · exact named .pid (List.mem_singleton_self _) inside
    · exact named .aid (List.mem_singleton_self _) inside

end Characters

end FeatureNames
