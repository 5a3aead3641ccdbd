import Mathlib.Data.List.Basic
import Mathlib.Tactic.Common

/-!
# Lines in a buffer of bounded length

A reader takes a file piece by piece. A piece ends behind the next stop, at the end of the file or
when the buffer is full, so that a long line is read in several pieces.
-/

namespace FileLines

universe u

variable {α : Type u} [DecidableEq α] (stop : α)

/-- The next piece, of at most `limit` elements, and what is left of the file. -/
def takeLine : Nat → List α → List α × List α
  | 0, file => ([], file)
  | _ + 1, [] => ([], [])
  | limit + 1, b :: file =>
    if b = stop then ([b], file)
    else (b :: (takeLine limit file).1, (takeLine limit file).2)

/-- Every turn takes an element at least. -/
def linesFrom (limit : Nat) : Nat → List α → List (List α)
  | 0, _ => []
  | fuel + 1, file =>
    if file = [] then []
    else (takeLine stop limit file).1 :: linesFrom limit fuel (takeLine stop limit file).2

def lines (limit : Nat) (file : List α) : List (List α) := linesFrom stop limit file.length file

variable {stop} {limit : Nat} {line file rest : List α}

theorem takeLine_join : (takeLine stop limit file).1 ++ (takeLine stop limit file).2 = file := by
  induction limit generalizing file with
  | zero => rfl
  | succ limit ih =>
    cases file with
    | nil => rfl
    | cons b file =>
      rw [takeLine]
      split_ifs
      · rfl
      · rw [List.cons_append, ih]

theorem takeLine_shorter (room : 0 < limit) (more : file ≠ []) :
    (takeLine stop limit file).2.length < file.length := by
  have join := congrArg List.length (@takeLine_join _ _ stop limit file)
  have some : 0 < (takeLine stop limit file).1.length := by
    cases file with
    | nil => exact absurd rfl more
    | cons b file =>
      cases limit with
      | zero => cases room
      | succ limit =>
        rw [takeLine]
        split_ifs <;> simp
  rw [List.length_append] at join
  omega

/-- A line that fits is read with its stop. -/
theorem takeLine_line (clean : stop ∉ line) (short : line.length < limit) :
    takeLine stop limit (line ++ stop :: rest) = (line ++ [stop], rest) := by
  induction line generalizing limit with
  | nil =>
    cases limit with
    | zero => cases short
    | succ limit => rw [List.nil_append, takeLine, if_pos rfl, List.nil_append]
  | cons b line ih =>
    rw [List.mem_cons, not_or] at clean
    cases limit with
    | zero => cases short
    | succ limit =>
      rw [List.cons_append, takeLine, if_neg (Ne.symm clean.1),
        ih clean.2 (Nat.lt_of_succ_lt_succ short), List.cons_append]

theorem linesFrom_enough (room : 0 < limit) {fuel : Nat} (enough : file.length ≤ fuel) :
    linesFrom stop limit fuel file = lines stop limit file := by
  rw [lines]
  induction fuel using Nat.strongRecOn generalizing file with
  | ind fuel ih =>
    cases file with
    | nil => cases fuel <;> rfl
    | cons b file =>
      cases fuel with
      | zero => cases enough
      | succ fuel =>
        have shorter := @takeLine_shorter _ _ stop _ _ room (List.cons_ne_nil b file)
        rw [List.length_cons] at shorter enough ⊢
        rw [linesFrom, linesFrom, if_neg (List.cons_ne_nil b file),
          ih fuel (Nat.lt_succ_self fuel) (by omega)]
        rcases Nat.lt_or_ge file.length (fuel + 1) with less | same
        · rw [ih file.length less (by omega), if_neg (List.cons_ne_nil b file)]
        · omega

theorem lines_nil : lines stop limit [] = [] := rfl

theorem lines_cons (room : 0 < limit) (more : file ≠ []) :
    lines stop limit file =
      (takeLine stop limit file).1 :: lines stop limit (takeLine stop limit file).2 := by
  have shorter := @takeLine_shorter _ _ stop _ _ room more
  rw [lines]
  cases length : file.length with
  | zero => omega
  | succ n => rw [linesFrom, if_neg more, linesFrom_enough room (by omega)]

/-- Lines that fit come back one by one, with their stops. -/
theorem lines_lines (all : List (List α)) (fit : ∀ line ∈ all, stop ∉ line ∧ line.length < limit)
    (file : List α) : lines stop limit (all.flatMap (· ++ [stop]) ++ file) =
      all.map (· ++ [stop]) ++ lines stop limit file := by
  induction all with
  | nil => rfl
  | cons line all ih =>
    obtain ⟨⟨clean, short⟩, fit⟩ := List.forall_mem_cons.mp fit
    have room : 0 < limit := Nat.zero_lt_of_lt short
    rw [List.flatMap_cons, List.append_assoc, List.append_assoc, List.singleton_append,
      lines_cons room (by simp), takeLine_line clean short, ih fit]
    rfl

end FileLines
