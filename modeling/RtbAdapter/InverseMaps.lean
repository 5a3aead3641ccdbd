import Mathlib.Tactic
import Std.Data.TreeMap.Lemmas

/-!
# Inverse maps

Two maps, each keyed by the values of the other. Erasing an entry from both and
emptying both keep them inverse; inserting an entry into both does so exactly
when neither of its halves is bound to something else.
-/

namespace InverseMaps

open Std

variable {κ τ : Type} [Ord κ] [Ord τ]

/-- Each map sends the values of the other back to their keys. -/
def Inverse (forth : TreeMap κ τ) (back : TreeMap τ κ) : Prop :=
  ∀ (k : κ) (t : τ), forth[k]? = some t ↔ back[t]? = some k

variable {forth : TreeMap κ τ} {back : TreeMap τ κ} {k j : κ} {t s : τ}

theorem Inverse.key_unique (inverse : Inverse forth back) (one : forth[k]? = some t)
    (other : forth[j]? = some t) : k = j := by
  have same := (inverse k t).mp one
  rw [(inverse j t).mp other] at same
  exact (Option.some.inj same).symm

variable [TransOrd κ] [TransOrd τ]

theorem inverse_empty : Inverse (∅ : TreeMap κ τ) (∅ : TreeMap τ κ) := by
  intro k t
  simp

variable [LawfulEqOrd κ] [LawfulEqOrd τ]

theorem getElem?_erase_ne {γ υ : Type} [Ord γ] [TransOrd γ] [LawfulEqOrd γ] {m : TreeMap γ υ}
    {a b : γ} (away : a ≠ b) : (m.erase a)[b]? = m[b]? := by
  rw [TreeMap.getElem?_erase, if_neg]
  simpa using away

theorem getElem?_insert_ne {γ υ : Type} [Ord γ] [TransOrd γ] [LawfulEqOrd γ] {m : TreeMap γ υ}
    {a b : γ} {v : υ} (away : a ≠ b) : (m.insert a v)[b]? = m[b]? := by
  rw [TreeMap.getElem?_insert, if_neg]
  simpa using away

theorem mem_erase_iff {γ υ : Type} [Ord γ] [TransOrd γ] [LawfulEqOrd γ] {m : TreeMap γ υ}
    {a b : γ} : b ∈ m.erase a ↔ b ≠ a ∧ b ∈ m := by
  rw [TreeMap.mem_erase, ne_eq, Std.compare_eq_iff_eq, eq_comm]

theorem mem_insert_iff {γ υ : Type} [Ord γ] [TransOrd γ] [LawfulEqOrd γ] {m : TreeMap γ υ}
    {a b : γ} {v : υ} : b ∈ m.insert a v ↔ b = a ∨ b ∈ m := by
  rw [TreeMap.mem_insert, Std.compare_eq_iff_eq, eq_comm]

theorem notMem_iff {γ υ : Type} [Ord γ] [TransOrd γ] {m : TreeMap γ υ} {a : γ} :
    a ∉ m ↔ m[a]? = none := by
  rw [TreeMap.mem_iff_isSome_getElem?, Option.not_isSome_iff_eq_none]

theorem getElem?_insert_iff {γ υ : Type} [Ord γ] [TransOrd γ] [LawfulEqOrd γ] {m : TreeMap γ υ}
    {a b : γ} {v w : υ} :
    (m.insert a v)[b]? = some w ↔ b = a ∧ v = w ∨ b ≠ a ∧ m[b]? = some w := by
  by_cases same : a = b
  · subst same
    simp
  · simp [getElem?_insert_ne same, Ne.symm same]

theorem getElem?_erase_iff {γ υ : Type} [Ord γ] [TransOrd γ] [LawfulEqOrd γ] {m : TreeMap γ υ}
    {a b : γ} {w : υ} : (m.erase a)[b]? = some w ↔ b ≠ a ∧ m[b]? = some w := by
  by_cases same : a = b
  · subst same
    simp
  · simp [getElem?_erase_ne same, Ne.symm same]

/-- Both halves of an entry leave together. -/
theorem Inverse.erase (inverse : Inverse forth back) (entry : forth[k]? = some t) :
    Inverse (forth.erase k) (back.erase t) := by
  intro j s
  by_cases key : k = j
  · subst key
    constructor
    · intro found
      simp at found
    · intro found
      by_cases value : t = s
      · subst value
        simp at found
      · rw [getElem?_erase_ne value, ← inverse k s, entry] at found
        exact absurd (Option.some.inj found) value
  · rw [getElem?_erase_ne key]
    by_cases value : t = s
    · subst value
      constructor
      · intro found
        exact absurd (inverse.key_unique entry found) key
      · intro found
        simp at found
    · rw [getElem?_erase_ne value]
      exact inverse j s

/-- The entry of a key and a value has neither half bound elsewhere. -/
def Fresh (forth : TreeMap κ τ) (back : TreeMap τ κ) (k : κ) (t : τ) : Prop :=
  (∀ s, forth[k]? = some s → s = t) ∧ ∀ j, back[t]? = some j → j = k

theorem Inverse.insert (inverse : Inverse forth back) (fresh : Fresh forth back k t) :
    Inverse (forth.insert k t) (back.insert t k) := by
  intro j s
  by_cases key : k = j
  · subst key
    rw [TreeMap.getElem?_insert_self]
    by_cases value : t = s
    · subst value
      simp
    · rw [getElem?_insert_ne value, ← inverse k s]
      constructor
      · intro found
        exact absurd (Option.some.inj found) value
      · intro found
        exact absurd (fresh.1 s found).symm value
  · rw [getElem?_insert_ne key]
    by_cases value : t = s
    · subst value
      rw [TreeMap.getElem?_insert_self]
      constructor
      · intro found
        exact absurd (fresh.2 j ((inverse j t).mp found)).symm key
      · intro found
        exact absurd (Option.some.inj found) key
    · rw [getElem?_insert_ne value]
      exact inverse j s

theorem Inverse.fresh (before : Inverse forth back)
    (after : Inverse (forth.insert k t) (back.insert t k)) : Fresh forth back k t := by
  constructor
  · intro s bound
    by_contra away
    have lost := (after k s).mpr (by
      rw [getElem?_insert_ne (Ne.symm away)]
      exact (before k s).mp bound)
    rw [TreeMap.getElem?_insert_self] at lost
    exact away (Option.some.inj lost).symm
  · intro j bound
    by_contra away
    have lost := (after j t).mp (by
      rw [getElem?_insert_ne (Ne.symm away)]
      exact (before j t).mpr bound)
    rw [TreeMap.getElem?_insert_self] at lost
    exact away (Option.some.inj lost).symm

/-- An entry may be added exactly when neither half is bound elsewhere. -/
theorem Inverse.insert_iff (inverse : Inverse forth back) :
    Inverse (forth.insert k t) (back.insert t k) ↔ Fresh forth back k t :=
  ⟨inverse.fresh, inverse.insert⟩

end InverseMaps
