import Mathlib.Data.List.Infix

/-!
# Replacing a pattern from the left

Every occurrence of a pattern that is met from the left, behind the one before, is replaced.
A pattern that is not empty leaves exactly one result for every text.
-/

namespace TextReplacement

universe u

variable {α : Type u}

/-- The first occurrence: no other one starts before it. -/
structure FirstCut (p s front back : List α) : Prop where
  whole : s = front ++ p ++ back
  first : ∀ a b, s = a ++ p ++ b → front.length ≤ a.length

/-- The occurrences of a pattern, each the first one behind the one before, are replaced. -/
inductive Replaced (p new : List α) : List α → List α → Prop
  | keep {s : List α} (absent : ¬ p <:+: s) : Replaced p new s s
  | cut {s front back out : List α} (first : FirstCut p s front back)
      (later : Replaced p new back out) : Replaced p new s (front ++ new ++ out)

variable {p new s t front back out out' : List α}

theorem FirstCut.unique {front' back' : List α} (one : FirstCut p s front back)
    (two : FirstCut p s front' back') : front = front' ∧ back = back' := by
  have size : front.length = front'.length :=
    le_antisymm (one.first _ _ two.whole) (two.first _ _ one.whole)
  have same := one.whole.symm.trans two.whole
  rw [List.append_assoc, List.append_assoc] at same
  obtain ⟨fronts, rest⟩ := List.append_inj same size
  exact ⟨fronts, List.append_cancel_left rest⟩

theorem Replaced.unique (one : Replaced p new s out) (two : Replaced p new s out') :
    out = out' := by
  induction one generalizing out' with
  | keep absent =>
    cases two with
    | keep _ => rfl
    | cut first _ => exact absurd ⟨_, _, first.whole.symm⟩ absent
  | cut first _ ih =>
    cases two with
    | keep absent => exact absurd ⟨_, _, first.whole.symm⟩ absent
    | cut first' later' =>
      obtain ⟨rfl, rfl⟩ := first.unique first'
      rw [ih later']

/-- A pattern that ends at a character is found in front of the character or behind it. -/
theorem infix_over {c : α} (clean : c ∉ p) (clean' : c ∉ t) :
    p ++ [c] <:+: t ++ c :: s ↔ p <:+ t ∨ p ++ [c] <:+: s := by
  constructor
  · rintro ⟨x, y, same⟩
    have same : (x ++ p) ++ c :: y = t ++ c :: s := by simpa using same
    rcases List.append_eq_append_iff.mp same with ⟨a, rfl, rest⟩ | ⟨a, cut, rest⟩
    · cases a with
      | nil => exact .inl ⟨x, (List.append_nil _).symm⟩
      | cons d a =>
        have here := (List.cons.inj rest).1
        exact absurd (List.mem_append_right _ (here ▸ List.mem_cons_self)) clean'
    · cases a with
      | nil => exact .inl ⟨x, by rw [cut, List.append_nil]⟩
      | cons d a =>
        obtain ⟨rfl, rfl⟩ := List.cons.inj rest
        have cut : x ++ p = (t ++ [c]) ++ a := by simpa using cut
        have behind : p <:+ a := by
          rcases List.append_eq_append_iff.mp cut with ⟨q, ends, rfl⟩ | ⟨q, -, rfl⟩
          · rcases List.eq_nil_or_concat' q with rfl | ⟨q, d, rfl⟩
            · exact List.suffix_rfl
            · rw [← List.append_assoc] at ends
              have last := List.singleton_inj.mp (List.append_inj' ends rfl).2
              exact absurd (by simp [last]) clean
          · exact List.suffix_append q p
        obtain ⟨front, rfl⟩ := behind
        exact .inr ⟨front, y, by simp⟩
  · rintro (⟨x, rfl⟩ | inside)
    · exact ⟨x, s, by simp⟩
    · exact inside.trans ⟨t ++ [c], [], by simp⟩

variable [DecidableEq α]

/-- What stands in front of the first occurrence of a pattern, and behind it. -/
def cutAt (p : List α) : List α → Option (List α × List α)
  | [] => if p = [] then some ([], []) else none
  | a :: s =>
    if p <+: a :: s then some ([], (a :: s).drop p.length)
    else (cutAt p s).map fun cut => (a :: cut.1, cut.2)

theorem cutAt_some (found : cutAt p s = some (front, back)) : FirstCut p s front back := by
  induction s generalizing front with
  | nil =>
    rw [cutAt] at found
    split at found
    · next none =>
      cases found
      exact ⟨by rw [none]; rfl, fun _ _ _ => Nat.zero_le _⟩
    · cases found
  | cons a s ih =>
    rw [cutAt] at found
    split at found
    · next here =>
      cases found
      obtain ⟨rest, split⟩ := here
      refine ⟨?_, fun _ _ _ => Nat.zero_le _⟩
      rw [← split, List.drop_left, List.nil_append]
    · next later =>
      obtain ⟨⟨front', back'⟩, found', same⟩ := Option.map_eq_some_iff.mp found
      cases same
      obtain ⟨whole, first⟩ := ih found'
      refine ⟨by rw [whole]; rfl, fun x b split => ?_⟩
      cases x with
      | nil => exact absurd ⟨b, split.symm⟩ later
      | cons c x =>
        obtain ⟨-, rest⟩ := List.cons.inj split
        exact Nat.succ_le_succ (first x b rest)

theorem cutAt_none : cutAt p s = none ↔ ¬ p <:+: s := by
  induction s with
  | nil =>
    rw [cutAt, List.infix_nil]
    split <;> simp [*]
  | cons a s ih =>
    rw [cutAt, List.infix_cons_iff, not_or, ← ih]
    split
    · simp [*]
    · simp [*]

theorem cutAt_eq_iff : cutAt p s = some (front, back) ↔ FirstCut p s front back := by
  refine ⟨cutAt_some, fun cut => ?_⟩
  cases found : cutAt p s with
  | none =>
    exact absurd ⟨front, back, cut.whole.symm⟩ (cutAt_none.mp found)
  | some pair =>
    obtain ⟨same, same'⟩ := (cutAt_some found).unique cut
    rw [← same, ← same']

/-- A pattern that starts with a pair starts nowhere in a text without this pair. -/
theorem cutAt_append {a : α} (apart : ¬ [a, a] <:+: t) (other : ¬ a :: p <+: s) :
    cutAt (a :: a :: p) (t ++ s) = (cutAt (a :: a :: p) s).map fun cut => (t ++ cut.1, cut.2) := by
  induction t with
  | nil =>
    rw [List.nil_append]
    cases cutAt (a :: a :: p) s <;> simp
  | cons b t ih =>
    have later : ¬ [a, a] <:+: t := fun inside => apart (List.infix_cons inside)
    have here : ¬ a :: a :: p <+: b :: (t ++ s) := by
      intro starts
      obtain ⟨rfl, behind⟩ := List.cons_prefix_cons.mp starts
      cases t with
      | nil => exact other behind
      | cons c t =>
        obtain ⟨rfl, -⟩ := List.cons_prefix_cons.mp behind
        exact apart ⟨[], t, rfl⟩
    rw [List.cons_append, cutAt, if_neg here, ih later, Option.map_map]
    rfl

/-- A pattern without a character does not reach over it. -/
theorem cutAt_over {c : α} (some' : p ≠ []) (clean : c ∉ p) (absent : ¬ p <:+: t) :
    cutAt p (t ++ c :: s) = (cutAt p s).map fun cut => (t ++ c :: cut.1, cut.2) := by
  induction t with
  | nil =>
    obtain ⟨a, p, rfl⟩ := List.exists_cons_of_ne_nil some'
    have here : ¬ a :: p <+: c :: s := fun starts =>
      clean (List.mem_cons.mpr (.inl (List.cons_prefix_cons.mp starts).1.symm))
    rw [List.nil_append, cutAt, if_neg here]
    rfl
  | cons b t ih =>
    have here : ¬ p <+: b :: (t ++ c :: s) := by
      intro starts
      rw [← List.cons_append] at starts
      rcases List.prefix_or_prefix_of_prefix starts (List.prefix_append _ _) with
        inside | ⟨q, rfl⟩
      · exact absent inside.isInfix
      · cases q with
        | nil => exact absent (by rw [List.append_nil])
        | cons d q =>
          have rest := (List.prefix_append_right_inj _).mp starts
          have same := (List.cons_prefix_cons.mp rest).1
          exact clean (List.mem_append_right _ (same ▸ List.mem_cons_self))
    have later : ¬ p <:+: t := fun inside => absent (List.infix_cons inside)
    rw [List.cons_append, cutAt, if_neg here, ih later, Option.map_map]
    rfl

/-- A text without the pair has no occurrence. -/
theorem cutAt_apart {a : α} (apart : ¬ [a, a] <:+: t) : cutAt (a :: a :: p) t = none := by
  have whole := cutAt_append (p := p) (s := []) apart (by simp)
  rwa [List.append_nil] at whole

theorem Replaced.exists (new : List α) (some' : p ≠ []) (s : List α) :
    ∃ out, Replaced p new s out := by
  induction size : s.length using Nat.strong_induction_on generalizing s with
  | _ n ih =>
    cases found : cutAt p s with
    | none => exact ⟨s, .keep (cutAt_none.mp found)⟩
    | some cut =>
      have first := cutAt_some found
      have shorter : cut.2.length < n := by
        have filled := List.length_pos_iff.mpr some'
        rw [← size, first.whole, List.length_append, List.length_append]
        omega
      obtain ⟨out, later⟩ := ih _ shorter cut.2 rfl
      exact ⟨_, .cut first later⟩

end TextReplacement
