import Mathlib.Tactic

/-!
# Objects that are made and freed

A ledger counts the objects a program has made and lists those it has freed. It is
clear when every object is either held or freed, and none is freed twice. Where each
object has one owner, making and freeing follow the owner's slot.
-/

namespace ObjectLedger

structure Ledger where
  made : Nat := 0
  freed : List Nat := []

namespace Ledger

variable (l : Ledger)

def make : Ledger := { l with made := l.made + 1 }

def free (id : Nat) : Ledger := { l with freed := id :: l.freed }

/-- Each object made so far is held or freed, and not freed twice. -/
structure Clear (held : Set Nat) : Prop where
  once : l.freed.Nodup
  known : ∀ id, id < l.made ↔ id ∈ l.freed ∨ id ∈ held
  apart : ∀ id ∈ l.freed, id ∉ held

end Ledger

open Ledger

variable {l : Ledger} {held : Set Nat} {id : Nat}

theorem clear_empty : ({} : Ledger).Clear ∅ := by
  constructor <;> simp

theorem Ledger.Clear.congr {kept : Set Nat} (clear : l.Clear held)
    (same : ∀ id, id ∈ held ↔ id ∈ kept) : l.Clear kept :=
  Set.ext same ▸ clear

theorem Ledger.Clear.fresh (clear : l.Clear held) : l.made ∉ l.freed ∧ l.made ∉ held := by
  have none := mt (clear.known l.made).mpr (Nat.lt_irrefl _)
  exact not_or.mp none

theorem Ledger.Clear.make (clear : l.Clear held) : l.make.Clear (insert l.made held) := by
  constructor
  · exact clear.once
  · intro id
    have known := clear.known id
    simp only [Ledger.make, Set.mem_insert_iff]
    constructor
    · intro below
      rcases Nat.lt_succ_iff_lt_or_eq.mp below with older | newest
      · rcases known.mp older with gone | kept
        · exact Or.inl gone
        · exact Or.inr (Or.inr kept)
      · exact Or.inr (Or.inl newest)
    · rintro (gone | rfl | kept)
      · exact Nat.lt_succ_of_lt (known.mpr (Or.inl gone))
      · exact Nat.lt_succ_self _
      · exact Nat.lt_succ_of_lt (known.mpr (Or.inr kept))
  · intro id gone among
    rcases among with rfl | kept
    · exact clear.fresh.1 gone
    · exact clear.apart id gone kept

theorem Ledger.Clear.free (clear : l.Clear held) (kept : id ∈ held) :
    (l.free id).Clear (held \ {id}) := by
  constructor
  · exact List.nodup_cons.mpr ⟨fun gone => clear.apart id gone kept, clear.once⟩
  · intro other
    simp only [Ledger.free, List.mem_cons, Set.mem_sdiff, Set.mem_singleton_iff]
    rw [clear.known other]
    by_cases same : other = id
    · subst same
      simp [kept]
    · simp [same]
  · intro other gone among
    rcases List.mem_cons.mp gone with same | gone
    · exact among.2 same
    · exact clear.apart other gone among.1

variable {κ : Type} {owner : κ → Option Nat} {k : κ}

/-- The objects that some slot owns. -/
def owned (owner : κ → Option Nat) : Set Nat := {id | ∃ k, owner k = some id}

/-- Each object is owned by one slot. -/
structure Single (l : Ledger) (owner : κ → Option Nat) : Prop where
  clear : l.Clear (owned owner)
  alone : ∀ j k id, owner j = some id → owner k = some id → j = k

theorem single_empty : Single {} (fun _ : κ => none) := by
  constructor
  · have none : owned (fun _ : κ => (none : Option Nat)) = ∅ := by
      ext id
      simp [owned]
    rw [none]
    exact clear_empty
  · intro j k id found
    cases found

variable [DecidableEq κ]

/-- A new object goes into a slot that owns nothing. -/
theorem Single.make (single : Single l owner) (vacant : owner k = none) :
    Single l.make (Function.update owner k (some l.made)) := by
  have grown : owned (Function.update owner k (some l.made)) = insert l.made (owned owner) := by
    ext id
    constructor
    · rintro ⟨j, found⟩
      by_cases same : j = k
      · subst same
        rw [Function.update_self] at found
        exact Or.inl (Option.some.inj found).symm
      · rw [Function.update_of_ne same] at found
        exact Or.inr ⟨j, found⟩
    · rintro (rfl | ⟨j, found⟩)
      · exact ⟨k, Function.update_self ..⟩
      · refine ⟨j, ?_⟩
        rw [Function.update_of_ne, found]
        rintro rfl
        rw [vacant] at found
        cases found
  constructor
  · rw [grown]
    exact single.clear.make
  · have new : ∀ j, owner j ≠ some l.made := fun j found => single.clear.fresh.2 ⟨j, found⟩
    intro i j id one other
    by_cases first : i = k <;> by_cases second : j = k
    · rw [first, second]
    · subst first
      rw [Function.update_self] at one
      rw [Function.update_of_ne second, ← one] at other
      exact absurd other (new j)
    · subst second
      rw [Function.update_self] at other
      rw [Function.update_of_ne first, ← other] at one
      exact absurd one (new i)
    · rw [Function.update_of_ne first] at one
      rw [Function.update_of_ne second] at other
      exact single.alone i j id one other

/-- An object is freed together with the slot that owns it. -/
theorem Single.free (single : Single l owner) (found : owner k = some id) :
    Single (l.free id) (Function.update owner k none) := by
  have shrunk : owned (Function.update owner k none) = owned owner \ {id} := by
    ext other
    constructor
    · rintro ⟨j, kept⟩
      by_cases same : j = k
      · subst same
        rw [Function.update_self] at kept
        cases kept
      · rw [Function.update_of_ne same] at kept
        refine ⟨⟨j, kept⟩, fun equal => same ?_⟩
        rw [Set.mem_singleton_iff] at equal
        subst equal
        exact single.alone j k other kept found
    · rintro ⟨⟨j, kept⟩, differ⟩
      refine ⟨j, ?_⟩
      rw [Function.update_of_ne, kept]
      rintro rfl
      exact differ (Option.some.inj (kept.symm.trans found))
  constructor
  · rw [shrunk]
    exact single.clear.free ⟨k, found⟩
  · intro i j other one two
    by_cases first : i = k
    · subst first
      rw [Function.update_self] at one
      cases one
    · by_cases second : j = k
      · subst second
        rw [Function.update_self] at two
        cases two
      · rw [Function.update_of_ne first] at one
        rw [Function.update_of_ne second] at two
        exact single.alone i j other one two

end ObjectLedger
