import Mathlib.Tactic

/-!
# Counts of holders

Every object counts how often it is held. Taking a hold adds one and giving a hold
back subtracts one, down to zero. The counts are balanced against a list of
the holds that are out when each exceeds its base by its holds on the list.
-/

namespace HeldCounts

variable {σ : Type} [DecidableEq σ]

def active (count : σ → Nat) (s : σ) : σ → Nat := Function.update count s (count s + 1)

def idle (count : σ → Nat) (s : σ) : σ → Nat := Function.update count s (count s - 1)

def Balanced (count base : σ → Nat) (holds : List σ) : Prop :=
  ∀ s, count s = base s + holds.count s

variable {count base : σ → Nat} {holds others : List σ} {s : σ}

theorem Balanced.perm (balanced : Balanced count base holds) (same : holds.Perm others) :
    Balanced count base others := by
  intro t
  rw [balanced t, same.count_eq t]

theorem Balanced.active (balanced : Balanced count base holds) :
    Balanced (active count s) base (s :: holds) := by
  intro t
  rw [HeldCounts.active]
  by_cases same : t = s
  · subst same
    rw [Function.update_self, balanced t, List.count_cons_self]
    omega
  · rw [Function.update_of_ne same, balanced t, List.count_cons_of_ne (Ne.symm same)]

theorem Balanced.idle (balanced : Balanced count base (s :: holds)) :
    Balanced (idle count s) base holds := by
  intro t
  rw [HeldCounts.idle]
  by_cases same : t = s
  · subst same
    rw [Function.update_self, balanced t, List.count_cons_self]
    omega
  · rw [Function.update_of_ne same, balanced t, List.count_cons_of_ne (Ne.symm same)]

/-- A hold may move between the list and the base. -/
theorem balanced_cons :
    Balanced count base (s :: holds) ↔ Balanced count (HeldCounts.active base s) holds := by
  have split : ∀ t, base t + (s :: holds).count t =
      HeldCounts.active base s t + holds.count t := by
    intro t
    rw [HeldCounts.active]
    by_cases same : t = s
    · subst same
      rw [Function.update_self, List.count_cons_self]
      omega
    · rw [Function.update_of_ne same, List.count_cons_of_ne (Ne.symm same)]
  constructor
  · intro balanced t
    rw [balanced t, split t]
  · intro balanced t
    rw [balanced t, split t]

theorem active_idle (held : 0 < base s) :
    HeldCounts.active (HeldCounts.idle base s) s = base := by
  rw [HeldCounts.idle, HeldCounts.active, Function.update_self, Function.update_idem,
    Nat.sub_add_cancel held]
  simp

/-- Others may take a hold and give it back beside the holds on the list. -/
theorem Balanced.active_base (balanced : Balanced count base holds) :
    Balanced (HeldCounts.active count s) (HeldCounts.active base s) holds :=
  balanced_cons.mp balanced.active

theorem Balanced.idle_base (balanced : Balanced count base holds) (held : 0 < base s) :
    Balanced (HeldCounts.idle count s) (HeldCounts.idle base s) holds := by
  rw [← active_idle held, ← balanced_cons] at balanced
  exact balanced.idle

/-- Counts balanced against one list are not balanced against a list with fewer holds of
some object. -/
theorem Balanced.not_fewer (balanced : Balanced count base holds)
    (fewer : others.count s < holds.count s) : ¬ Balanced count base others := by
  intro again
  have one := balanced s
  have two := again s
  omega

/-- Counts balanced against a longer list and against a part of it leave nothing over. -/
theorem Balanced.nothing_over (balanced : Balanced count base (others ++ holds))
    (part : Balanced count base holds) : others = [] := by
  rw [List.eq_nil_iff_forall_not_mem]
  intro t among
  have more := List.count_pos_iff.mpr among
  have fewer : holds.count t < (others ++ holds).count t := by
    rw [List.count_append]
    omega
  exact balanced.not_fewer fewer part

/-- Giving back a hold that is not out unbalances the counts unless there is none. -/
theorem Balanced.idle_iff (balanced : Balanced count base holds) :
    Balanced (HeldCounts.idle count s) base holds ↔ count s = 0 := by
  constructor
  · intro after
    have same := after s
    rw [HeldCounts.idle, Function.update_self, ← balanced s] at same
    omega
  · intro none t
    rw [← balanced t, HeldCounts.idle]
    by_cases same : t = s
    · subst same
      rw [Function.update_self]
      omega
    · rw [Function.update_of_ne same]

end HeldCounts
