import RtbAdapter.CText
import RtbAdapter.TextReplacement

/-!
# The macros of a markup

`AdString::StrReplace` looks for a macro behind the last one that it found, and appends what it
passes. The loop ends for every text, unless the macro is empty.
-/

namespace MarkupMacros

open ByteWords TextReplacement

/-- The loop over what is left of the source, a turn for a unit of fuel. -/
def strReplace (sMatch sNew : Bytes) : Nat → Bytes → Bytes → Option Bytes
  | 0, _, _ => none
  | fuel + 1, sSrc, sDes =>
    match cutAt sMatch sSrc with
    | some (front, back) => strReplace sMatch sNew fuel back (sDes ++ front ++ sNew)
    | none => some (sDes ++ sSrc)

variable {sMatch sNew sSrc sDes r out : Bytes}

theorem strReplace_absent (absent : cutAt sMatch sSrc = none) (fuel : Nat) :
    strReplace sMatch sNew (fuel + 1) sSrc sDes = some (sDes ++ sSrc) := by
  rw [strReplace, absent]

theorem strReplace_found {front back : Bytes} (found : cutAt sMatch sSrc = some (front, back))
    (fuel : Nat) : strReplace sMatch sNew (fuel + 1) sSrc sDes =
      strReplace sMatch sNew fuel back (sDes ++ front ++ sNew) := by
  rw [strReplace, found]

/-- The empty macro is found at once, again and again. -/
theorem strReplace_empty (fuel : Nat) : strReplace [] sNew fuel sSrc sDes = none := by
  induction fuel generalizing sDes with
  | zero => rfl
  | succ fuel ih =>
    have found : cutAt [] sSrc = some ([], sSrc) :=
      cutAt_eq_iff.mpr ⟨rfl, fun _ _ _ => Nat.zero_le _⟩
    rw [strReplace_found found, ih]

theorem strReplace_replaced {fuel : Nat} (done : strReplace sMatch sNew fuel sSrc sDes = some r) :
    ∃ out, Replaced sMatch sNew sSrc out ∧ r = sDes ++ out := by
  induction fuel generalizing sSrc sDes with
  | zero => cases done
  | succ fuel ih =>
    cases found : cutAt sMatch sSrc with
    | none =>
      rw [strReplace_absent found] at done
      exact ⟨sSrc, .keep (cutAt_none.mp found), (Option.some.inj done).symm⟩
    | some cut =>
      rw [strReplace_found found] at done
      obtain ⟨out, later, rfl⟩ := ih done
      refine ⟨_, .cut (cutAt_some found) later, ?_⟩
      simp only [List.append_assoc]

theorem strReplace_of_replaced (replaced : Replaced sMatch sNew sSrc out) (some' : sMatch ≠ [])
    (sDes : Bytes) {fuel : Nat} (enough : sSrc.length < fuel) :
    strReplace sMatch sNew fuel sSrc sDes = some (sDes ++ out) := by
  induction replaced generalizing sDes fuel with
  | keep absent =>
    obtain ⟨fuel, rfl⟩ := Nat.exists_eq_succ_of_ne_zero (Nat.ne_zero_of_lt enough)
    exact strReplace_absent (cutAt_none.mpr absent) fuel
  | @cut s front back out first _ ih =>
    obtain ⟨fuel, rfl⟩ := Nat.exists_eq_succ_of_ne_zero (Nat.ne_zero_of_lt enough)
    have filled := List.length_pos_iff.mpr some'
    have room : back.length < fuel := by
      rw [first.whole, List.length_append, List.length_append] at enough
      omega
    rw [strReplace_found (cutAt_eq_iff.mpr first), ih _ room]
    simp only [List.append_assoc]

/-- **What a replacement leaves.** The loop ends unless the macro is empty, and appends the source
with each occurrence replaced that is the first one behind the one before. -/
theorem strReplace_eq_iff (sMatch sNew sSrc sDes : Bytes) :
    ((∃ fuel r, strReplace sMatch sNew fuel sSrc sDes = some r) ↔ sMatch ≠ []) ∧
      ∀ out, (∃ fuel, strReplace sMatch sNew fuel sSrc sDes = some (sDes ++ out)) ↔
        sMatch ≠ [] ∧ Replaced sMatch sNew sSrc out := by
  have filled {fuel : Nat} {r : Bytes} (done : strReplace sMatch sNew fuel sSrc sDes = some r) :
      sMatch ≠ [] := by
    rintro rfl
    rw [strReplace_empty] at done
    cases done
  refine ⟨⟨fun ⟨_, _, done⟩ => filled done, fun some' => ?_⟩, fun out => ⟨?_, ?_⟩⟩
  · obtain ⟨out, replaced⟩ := Replaced.exists sNew some' sSrc
    exact ⟨_, _, strReplace_of_replaced replaced some' sDes (Nat.lt_succ_self _)⟩
  · rintro ⟨fuel, done⟩
    obtain ⟨out', replaced, same⟩ := strReplace_replaced done
    rw [List.append_cancel_left same]
    exact ⟨filled done, replaced⟩
  · rintro ⟨some', replaced⟩
    exact ⟨_, strReplace_of_replaced replaced some' sDes (Nat.lt_succ_self _)⟩

end MarkupMacros
