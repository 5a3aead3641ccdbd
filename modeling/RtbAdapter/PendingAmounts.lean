import Mathlib.Algebra.BigOperators.Group.List.Basic
import Mathlib.Algebra.Order.BigOperators.Group.List
import Mathlib.Tactic.Abel
import Std.Data.TreeMap

/-!
# Amounts under keys

A table keeps an amount under each key, and a list of entries may name a key more
than once. What a list holds for a key is the sum over its entries.
-/

namespace PendingAmounts

open Std

variable {κ ν A : Type} [AddCommMonoid A]

section Entries

variable [DecidableEq κ]

/-- What the entries hold for one key. -/
def amountOf (key : κ) (entries : List (κ × A)) : A :=
  ((entries.filter fun entry => entry.1 = key).map Prod.snd).sum

variable {key : κ} {entries : List (κ × A)}

@[simp] theorem amountOf_nil : amountOf key ([] : List (κ × A)) = 0 := rfl

theorem amountOf_cons (entry : κ × A) :
    amountOf key (entry :: entries) =
      (if entry.1 = key then entry.2 else 0) + amountOf key entries := by
  by_cases same : entry.1 = key
  · simp [amountOf, same]
  · simp [amountOf, same]

@[simp] theorem amountOf_append (more : List (κ × A)) :
    amountOf key (entries ++ more) = amountOf key entries + amountOf key more := by
  simp [amountOf]

theorem amountOf_singleton (entry : κ × A) :
    amountOf key [entry] = if entry.1 = key then entry.2 else 0 := by
  rw [amountOf_cons, amountOf_nil, add_zero]

theorem amountOf_absent (absent : ∀ entry ∈ entries, entry.1 ≠ key) :
    amountOf key entries = 0 := by
  have none : (entries.filter fun entry => entry.1 = key) = [] := by
    simpa [List.filter_eq_nil_iff] using absent
  rw [amountOf, none, List.map_nil, List.sum_nil]

/-- Where the keys are apart, an entry holds all of its key's amount. -/
theorem amountOf_mem (apart : entries.Pairwise fun one other => one.1 ≠ other.1) {a : A}
    (listed : (key, a) ∈ entries) : amountOf key entries = a := by
  induction entries with
  | nil => cases listed
  | cons entry entries ih =>
    obtain ⟨first, later⟩ := List.pairwise_cons.mp apart
    rw [amountOf_cons]
    rcases List.mem_cons.mp listed with rfl | listed
    · have absent : amountOf key entries = 0 :=
        amountOf_absent fun other inside same => first other inside same.symm
      simp [absent]
    · rw [if_neg (first _ listed), zero_add, ih later listed]

theorem amountOf_flatMap {ι : Type} (groups : List ι) (entriesOf : ι → List (κ × A)) :
    amountOf key (groups.flatMap entriesOf) =
      (groups.map fun group => amountOf key (entriesOf group)).sum := by
  induction groups with
  | nil => rfl
  | cons group groups ih =>
    rw [List.flatMap_cons, amountOf_append, ih, List.map_cons, List.sum_cons]

/-- Entries that all count for something hold nothing only when there are none. -/
theorem entries_eq_nil_iff [PartialOrder A] [IsOrderedAddMonoid A]
    (positive : ∀ entry ∈ entries, 0 < entry.2) :
    entries = [] ↔ ∀ key, amountOf key entries = 0 := by
  constructor
  · rintro rfl key
    exact amountOf_nil
  · intro nothing
    cases entries with
    | nil => rfl
    | cons entry entries =>
      have rest : 0 ≤ amountOf entry.1 entries := by
        apply List.sum_nonneg
        intro a inside
        obtain ⟨other, listed, rfl⟩ := List.mem_map.mp inside
        exact (positive other (.tail _ (List.mem_filter.mp listed).1)).le
      have none := nothing entry.1
      rw [amountOf_cons, if_pos rfl] at none
      exact absurd none (add_pos_of_pos_of_nonneg (positive entry (.head _)) rest).ne'

end Entries

/-- In an ordered list, a loop comes to an entry when it passes all that are not behind it. -/
theorem mem_takeWhile_iff [Ord κ] [TransOrd κ] {entries : List (κ × ν)}
    (ordered : entries.Pairwise fun one other => compare one.1 other.1 = .lt)
    (passes : κ × ν → Bool) (entry : κ × ν) :
    entry ∈ entries.takeWhile passes ↔ entry ∈ entries ∧
      ∀ ahead ∈ entries, compare ahead.1 entry.1 ≠ .gt → passes ahead := by
  induction entries with
  | nil => simp
  | cons first rest ih =>
    obtain ⟨before, later⟩ := List.pairwise_cons.mp ordered
    rw [List.takeWhile_cons]
    by_cases passed : passes first = true
    · rw [if_pos passed, List.mem_cons, List.mem_cons, ih later]
      constructor
      · rintro (rfl | ⟨listed, all⟩)
        · refine ⟨.inl rfl, fun ahead inside behind => ?_⟩
          rcases List.mem_cons.mp inside with rfl | inside
          · exact passed
          · have after := before ahead inside
            exact absurd (OrientedCmp.gt_of_lt after) behind
        · refine ⟨.inr listed, fun ahead inside behind => ?_⟩
          rcases List.mem_cons.mp inside with rfl | inside
          · exact passed
          · exact all ahead inside behind
      · rintro ⟨rfl | listed, all⟩
        · exact .inl rfl
        · exact .inr ⟨listed, fun ahead inside => all ahead (.tail _ inside)⟩
    · rw [if_neg passed]
      constructor
      · intro none
        cases none
      · rintro ⟨listed, all⟩
        have behind : compare first.1 entry.1 ≠ .gt := by
          rcases List.mem_cons.mp listed with rfl | listed
          · have same : compare entry.1 entry.1 = .eq := ReflCmp.compare_self
            rw [same]
            decide
          · rw [before entry listed]
            decide
        exact absurd (all first (.head _) behind) passed

section Tables

variable [Ord κ] [TransOrd κ] [LawfulEqOrd κ] {table : TreeMap κ ν} {key : κ}

theorem toList_apart : table.toList.Pairwise fun one other => one.1 ≠ other.1 :=
  TreeMap.distinct_keys_toList.imp fun different same =>
    different (compare_eq_iff_eq.mpr same)

theorem toList_nodup : table.toList.Nodup :=
  toList_apart.imp fun different same => different (congrArg Prod.fst same)

/-- Tables that store the same have the same entries. -/
theorem toList_perm {other : TreeMap κ ν} (same : ∀ k : κ, table[k]? = other[k]?) :
    table.toList.Perm other.toList := by
  refine (List.perm_ext_iff_of_nodup toList_nodup toList_nodup).mpr fun entry => ?_
  rw [TreeMap.mem_toList_iff_getElem?_eq_some, TreeMap.mem_toList_iff_getElem?_eq_some, same]

/-- An entry and the rest of its table. -/
theorem toList_perm_erase {value : ν} (found : table[key]? = some value) :
    table.toList.Perm ((key, value) :: (table.erase key).toList) := by
  have gone : (key, value) ∉ (table.erase key).toList := by
    rw [TreeMap.mem_toList_iff_getElem?_eq_some]
    simp
  refine (List.perm_ext_iff_of_nodup toList_nodup
    (List.nodup_cons.mpr ⟨gone, toList_nodup⟩)).mpr fun entry => ?_
  rw [List.mem_cons, TreeMap.mem_toList_iff_getElem?_eq_some,
    TreeMap.mem_toList_iff_getElem?_eq_some, TreeMap.getElem?_erase]
  by_cases same : key = entry.1
  · obtain ⟨other, stored⟩ := entry
    obtain rfl : key = other := same
    simp [found, eq_comm]
  · have other : entry ≠ (key, value) := fun this => same (congrArg Prod.fst this).symm
    simp [same, other]

/-- The sum over a table of what its entries stand for. -/
def total (amount : κ → ν → A) (table : TreeMap κ ν) : A :=
  (table.toList.map fun entry => amount entry.1 entry.2).sum

omit [TransOrd κ] [LawfulEqOrd κ] in
theorem total_empty (amount : κ → ν → A) : total amount ∅ = 0 := rfl

variable {amount : κ → ν → A}

theorem total_erase {value : ν} (found : table[key]? = some value) :
    total amount table = amount key value + total amount (table.erase key) := by
  rw [total, ((toList_perm_erase found).map _).sum_eq, List.map_cons, List.sum_cons, total]

/-- What a table stores elsewhere is left alone. -/
theorem total_rest {other : TreeMap κ ν} (same : ∀ k : κ, k ≠ key → table[k]? = other[k]?) :
    total amount (table.erase key) = total amount (other.erase key) := by
  have perm : (table.erase key).toList.Perm (other.erase key).toList := by
    apply toList_perm
    intro k
    rw [TreeMap.getElem?_erase, TreeMap.getElem?_erase]
    by_cases here : k = key
    · simp [here]
    · simp [Ne.symm here, same k here]
  exact (perm.map _).sum_eq

theorem total_absent (absent : table[key]? = none) :
    total amount table = total amount (table.erase key) := by
  have perm : table.toList.Perm (table.erase key).toList := by
    apply toList_perm
    intro k
    rw [TreeMap.getElem?_erase]
    by_cases here : key = k
    · simp [← here, absent]
    · simp [here]
  exact (perm.map _).sum_eq

/-- A value takes the place of the one that stood there. -/
theorem total_insert (amount : κ → ν → A) (table : TreeMap κ ν) (key : κ) (value : ν) :
    total amount (table.insert key value) + table[key]?.elim 0 (amount key) =
      total amount table + amount key value := by
  have there : (table.insert key value)[key]? = some value := by
    rw [TreeMap.getElem?_insert_self]
  have rest : total amount ((table.insert key value).erase key) =
      total amount (table.erase key) := by
    apply total_rest
    intro k other
    simp [TreeMap.getElem?_insert, other.symm]
  rw [total_erase there, rest]
  cases found : table[key]? with
  | none =>
    rw [total_absent found, Option.elim_none]
    abel
  | some old =>
    rw [total_erase found, Option.elim_some]
    abel

/-- What a table holds for a key stands under it. -/
theorem amountOf_toList [DecidableEq κ] (amount : ν → A) :
    amountOf key (table.toList.map fun entry => (entry.1, amount entry.2)) =
      table[key]?.elim 0 amount := by
  cases found : table[key]? with
  | none =>
    apply amountOf_absent
    intro entry listed
    obtain ⟨stored, inside, rfl⟩ := List.mem_map.mp listed
    have there := TreeMap.mem_toList_iff_getElem?_eq_some.mp inside
    rintro rfl
    rw [found] at there
    cases there
  | some value =>
    have apart : (table.toList.map fun entry => (entry.1, amount entry.2)).Pairwise
        fun one other => one.1 ≠ other.1 := List.pairwise_map.mpr toList_apart
    refine amountOf_mem apart ?_
    exact List.mem_map.mpr ⟨(key, value), TreeMap.mem_toList_iff_getElem?_eq_some.mpr found, rfl⟩

end Tables

end PendingAmounts
