import Mathlib.Data.List.Flatten
import Mathlib.Data.List.Perm.Lattice
import Mathlib.Data.List.Range
import Mathlib.Tactic.Linarith

/-!
# Scans with shifts

A scan goes from the last position down. After it has come to a position it may pass
over some of those below. What it collects is all there is to collect exactly when there
is nothing at the positions it passes over.
-/

namespace ShiftedScan

variable {α β : Type}

/-- The positions below `n` that a scan comes to when the first `skip` are passed over. -/
def starts (passes : Nat → Nat) : Nat → Nat → List Nat
  | _, 0 => []
  | skip + 1, n + 1 => starts passes skip n
  | 0, n + 1 => n :: starts passes (passes n) n

variable {passes : Nat → Nat} {skip n m b : Nat}

theorem starts_plain (none : ∀ b, passes b = 0) (n : Nat) :
    starts passes 0 n = (List.range n).reverse := by
  induction n with
  | zero => rfl
  | succ n ih => rw [starts, none, ih, List.range_succ, List.reverse_append, List.reverse_singleton,
      List.singleton_append]

theorem starts_sublist : (starts passes skip n).Sublist (List.range n).reverse := by
  induction n generalizing skip with
  | zero => cases skip <;> exact List.Sublist.refl _
  | succ n ih =>
    rw [List.range_succ, List.reverse_append, List.reverse_singleton, List.singleton_append]
    cases skip with
    | zero => exact ih.cons_cons n
    | succ skip => exact ih.cons n

theorem starts_below (come : b ∈ starts passes skip n) : b + skip < n := by
  induction n generalizing skip with
  | zero => cases skip <;> cases come
  | succ n ih =>
    cases skip with
    | zero =>
      rcases List.mem_cons.mp come with rfl | later
      · omega
      · have below := ih later
        omega
    | succ skip =>
      have below := ih come
      omega

/-- A position that a scan does not come to is passed over. -/
theorem passed_of_not_mem (below : m < n) (missed : m ∉ starts passes skip n) :
    n ≤ m + skip ∨ ∃ b ∈ starts passes skip n, m < b ∧ b ≤ m + passes b := by
  induction n generalizing skip with
  | zero => omega
  | succ n ih =>
    cases skip with
    | zero =>
      rw [starts, List.mem_cons, not_or] at missed
      rcases ih (by omega) missed.2 with last | ⟨b, come, above, passed⟩
      · exact .inr ⟨n, .head _, by omega, last⟩
      · exact .inr ⟨b, .tail _ come, above, passed⟩
    | succ skip =>
      by_cases last : m = n
      · left
        omega
      · rcases ih (by omega) missed with near | far
        · left
          omega
        · exact .inr far

/-- A scan does not come to what it passes over. -/
theorem not_mem_of_passed (come : b ∈ starts passes skip n) (above : m < b)
    (passed : b ≤ m + passes b) : m ∉ starts passes skip n := by
  induction n generalizing skip with
  | zero => cases skip <;> cases come
  | succ n ih =>
    cases skip with
    | zero =>
      intro again
      rcases List.mem_cons.mp come with rfl | come
      · rcases List.mem_cons.mp again with rfl | again
        · omega
        · have below := starts_below again
          omega
      · rcases List.mem_cons.mp again with rfl | again
        · have below := starts_below come
          omega
        · exact ih come again
    | succ skip => exact ih come

/-- A part of a list gives as much as the list exactly when the rest gives nothing. -/
theorem flatMap_perm_iff {l l' : List α} (sub : l.Sublist l') (apart : l'.Nodup)
    (f : α → List β) :
    (l.flatMap f).Perm (l'.flatMap f) ↔ ∀ a ∈ l', a ∉ l → f a = [] := by
  induction sub with
  | slnil => simp
  | cons a sub ih =>
    obtain ⟨fresh, apart⟩ := List.nodup_cons.mp apart
    have out := fun inside => fresh (sub.subset inside)
    rw [List.flatMap_cons, List.forall_mem_cons, ← ih apart]
    constructor
    · intro all
      have length := all.length_eq
      have bound := (sub.flatMap f).length_le
      rw [List.length_append] at length
      have none : f a = [] := List.eq_nil_of_length_eq_zero (by omega)
      rw [none, List.nil_append] at all
      exact ⟨fun _ => none, all⟩
    · rintro ⟨none, rest⟩
      rw [none out, List.nil_append]
      exact rest
  | cons_cons a sub ih =>
    obtain ⟨fresh, apart⟩ := List.nodup_cons.mp apart
    rw [List.flatMap_cons, List.flatMap_cons, List.perm_append_left_iff, ih apart,
      List.forall_mem_cons]
    constructor
    · intro rest
      refine ⟨fun out => absurd (.head _) out, fun b inside out => ?_⟩
      exact rest b inside fun here => out (.tail _ here)
    · rintro ⟨_, rest⟩ b inside out
      refine rest b inside fun here => ?_
      rcases List.mem_cons.mp here with rfl | here
      · exact fresh inside
      · exact out here

/-- A scan collects what the plain one does exactly when it passes over nothing. -/
theorem starts_perm_iff (passes : Nat → Nat) (n : Nat) (f : Nat → List β) :
    ((starts passes 0 n).flatMap f).Perm ((List.range n).reverse.flatMap f) ↔
      ∀ b ∈ starts passes 0 n, ∀ m, m < b → b ≤ m + passes b → f m = [] := by
  have apart : (List.range n).reverse.Nodup := List.nodup_reverse.mpr List.nodup_range
  rw [flatMap_perm_iff starts_sublist apart]
  constructor
  · intro all b come m above passed
    have bound := starts_below come
    have below : m ∈ (List.range n).reverse := by
      rw [List.mem_reverse, List.mem_range]
      omega
    exact all m below (not_mem_of_passed come above passed)
  · intro all m below missed
    rw [List.mem_reverse, List.mem_range] at below
    rcases passed_of_not_mem below missed with last | ⟨b, come, above, passed⟩
    · omega
    · exact all b come m above passed

end ShiftedScan
