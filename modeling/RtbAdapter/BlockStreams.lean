import Mathlib.Data.List.Basic
import Mathlib.Tactic.Common

/-!
# Texts that are taken in by blocks

A state takes a text in by blocks of one size, from the front. What is left is shorter than a
block, and waits for more: a text that comes in pieces is taken in as if it came at once.
-/

namespace BlockStreams

universe u v

variable {α : Type u} {σ : Type v} (compress : σ → List α → σ) (n : Nat)

def turns : Nat → σ → List α → σ × List α
  | 0, s, text => (s, text)
  | k + 1, s, text => turns k (compress s (text.take n)) (text.drop n)

/-- The state behind the whole blocks of a text, and what is left of the text. -/
def absorb (s : σ) (text : List α) : σ × List α := turns compress n (text.length / n) s text

/-- A state with a text that waits takes in a piece. -/
def feed (waiting : σ × List α) (piece : List α) : σ × List α :=
  absorb compress n waiting.1 (waiting.2 ++ piece)

variable {compress n} {s : σ} {text block : List α}

theorem absorb_short (short : text.length < n) : absorb compress n s text = (s, text) := by
  rw [absorb, Nat.div_eq_of_lt short, turns]

theorem absorb_block (some' : 0 < n) (size : block.length = n) :
    absorb compress n s (block ++ text) = absorb compress n (compress s block) text := by
  have count : (block ++ text).length / n = text.length / n + 1 := by
    rw [List.length_append, size, Nat.add_div_left _ some']
  rw [absorb, count, turns, List.take_left' size, List.drop_left' size, absorb]

theorem absorb_drop (some' : 0 < n) (long : n ≤ text.length) :
    absorb compress n s text = absorb compress n (compress s (text.take n)) (text.drop n) := by
  have size : (text.take n).length = n := List.length_take_of_le long
  rw [← absorb_block some' size, List.take_append_drop]

variable (compress) in
theorem absorb_length (some' : 0 < n) (s : σ) (text : List α) :
    (absorb compress n s text).2.length = text.length % n := by
  induction size : text.length using Nat.strongRecOn generalizing s text with
  | _ k ih =>
    by_cases short : text.length < n
    · rw [absorb_short short, ← size, Nat.mod_eq_of_lt short]
    · have long : n ≤ text.length := by omega
      have less : (text.drop n).length = k - n := by rw [List.length_drop, size]
      rw [absorb_drop some' long, ih (k - n) (by omega) _ _ less,
        Nat.mod_eq_sub_mod (a := k) (by omega)]

/-- Blocks that are complete are taken in, whatever follows. -/
theorem absorb_append (some' : 0 < n) (s : σ) (text text' : List α) :
    absorb compress n s (text ++ text') = feed compress n (absorb compress n s text) text' := by
  induction size : text.length using Nat.strongRecOn generalizing s text with
  | _ k ih =>
    by_cases short : text.length < n
    · rw [absorb_short short, feed]
    · have long : n ≤ text.length := by omega
      have less : (text.drop n).length < k := by
        rw [List.length_drop]
        omega
      have front : (text.take n).length = n := List.length_take_of_le long
      rw [absorb_drop some' long, ← ih _ less (compress s (text.take n)) (text.drop n) rfl,
        ← absorb_block some' front, ← List.append_assoc, List.take_append_drop]

end BlockStreams
