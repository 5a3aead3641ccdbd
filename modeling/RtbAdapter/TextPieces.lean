import Mathlib.Tactic

/-!
# Pieces of a text

A text is read piece by piece up to a separator. Nothing behind the last separator is no
piece, but an empty piece in front of a separator is one.
-/

namespace TextPieces

variable {α : Type} [DecidableEq α] (sep : α)

def piecesFrom : List α → List α → List (List α)
  | piece, [] => if piece = [] then [] else [piece]
  | piece, b :: s => if b = sep then piece :: piecesFrom [] s else piecesFrom (piece ++ [b]) s

def pieces (s : List α) : List (List α) := piecesFrom sep [] s

variable {sep} {a s t p piece : List α} {rest : List (List α)} {b : α}

theorem piecesFrom_clean (clean : sep ∉ a) :
    piecesFrom sep piece (a ++ s) = piecesFrom sep (piece ++ a) s := by
  induction a generalizing piece with
  | nil => simp
  | cons b a ih =>
    rw [List.mem_cons, not_or] at clean
    rw [List.cons_append, piecesFrom, if_neg (Ne.symm clean.1), ih clean.2, List.append_assoc,
      List.singleton_append]

theorem pieces_cons (clean : sep ∉ a) : pieces sep (a ++ sep :: s) = a :: pieces sep s := by
  rw [pieces, piecesFrom_clean clean, piecesFrom, if_pos rfl]
  rfl

theorem pieces_whole (clean : sep ∉ a) (some' : a ≠ []) : pieces sep a = [a] := by
  have cut : piecesFrom sep [] (a ++ []) = piecesFrom sep ([] ++ a) [] := piecesFrom_clean clean
  rw [List.append_nil, List.nil_append] at cut
  rw [pieces, cut, piecesFrom, if_neg some']

/-- Lines come back one by one. -/
theorem pieces_lines {lines : List (List α)} (clean : ∀ line ∈ lines, sep ∉ line) :
    pieces sep (lines.flatMap (· ++ [sep])) = lines := by
  induction lines with
  | nil => rfl
  | cons line lines ih =>
    rw [List.forall_mem_cons] at clean
    rw [List.flatMap_cons, List.append_assoc, List.singleton_append, pieces_cons clean.1,
      ih clean.2]

theorem piecesFrom_notMem (clean : sep ∉ piece) : ∀ p ∈ piecesFrom sep piece s, sep ∉ p := by
  induction s generalizing piece with
  | nil =>
    intro p inside
    rw [piecesFrom] at inside
    split_ifs at inside
    · cases inside
    · rwa [List.mem_singleton.mp inside]
  | cons b s ih =>
    rw [piecesFrom]
    split_ifs with cut
    · rw [List.forall_mem_cons]
      exact ⟨clean, ih (List.not_mem_nil)⟩
    · refine ih ?_
      rw [List.mem_append, List.mem_singleton, not_or]
      exact ⟨clean, Ne.symm cut⟩

theorem pieces_notMem : ∀ p ∈ pieces sep s, sep ∉ p := piecesFrom_notMem List.not_mem_nil

theorem mem_piecesFrom (other : b ≠ sep) :
    (∃ p ∈ piecesFrom sep piece s, b ∈ p) ↔ b ∈ piece ∨ b ∈ s := by
  induction s generalizing piece with
  | nil =>
    rw [piecesFrom]
    split_ifs with none
    · simp [none]
    · simp
  | cons c s ih =>
    rw [piecesFrom]
    split_ifs with cut
    · subst cut
      simp [ih, other]
    · simp [ih, or_assoc]

/-- No element is lost but the separators. -/
theorem mem_pieces (other : b ≠ sep) : (∃ p ∈ pieces sep s, b ∈ p) ↔ b ∈ s := by
  rw [pieces, mem_piecesFrom other]
  simp

theorem piecesFrom_front (more : rest ≠ []) (cut : piecesFrom sep piece s = p :: rest) :
    ∃ a t, p = piece ++ a ∧ s = a ++ sep :: t ∧ pieces sep t = rest := by
  induction s generalizing piece with
  | nil =>
    rw [piecesFrom] at cut
    split_ifs at cut
    exact absurd (List.cons.inj cut).2.symm more
  | cons b s ih =>
    rw [piecesFrom] at cut
    split_ifs at cut with here
    · obtain ⟨rfl, behind⟩ := List.cons.inj cut
      exact ⟨[], s, (List.append_nil _).symm, by rw [here, List.nil_append], behind⟩
    · obtain ⟨a, t, rfl, rfl, behind⟩ := ih cut
      exact ⟨b :: a, t, by simp, by simp, behind⟩

/-- A first piece with others behind it ends at a separator. -/
theorem pieces_front (more : rest ≠ []) (cut : pieces sep s = p :: rest) :
    ∃ t, s = p ++ sep :: t ∧ pieces sep t = rest := by
  obtain ⟨a, t, rfl, same, behind⟩ := piecesFrom_front more cut
  exact ⟨t, same, behind⟩

end TextPieces
