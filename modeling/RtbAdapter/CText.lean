import Mathlib.Data.List.TakeWhile
import RtbAdapter.ByteWords

/-!
# Text as the C library sees it

`%d` and `%s` of `snprintf`, `atoi`, `tolower` and `StrSplit`, over byte
strings. A string handed to a C function ends at its first NUL.
-/

namespace CText

open ByteWords

def cStr (s : Bytes) : Bytes := s.takeWhile (· ≠ 0)

/-- `%d`. -/
def decimal (n : Int) : Bytes := ascii (toString n)

/-- `%d` with an argument of type `UINT`, which is printed as an `int`. -/
def decimalUInt (n : UInt32) : Bytes := decimal (toInt32 n.toNat)

/-- `%02d` of an hour. -/
def twoDigits (n : Nat) : Bytes := if n < 10 then ascii "0" ++ decimal n else decimal n

/-- What `snprintf` leaves in a buffer of `size` bytes, without its NUL. -/
def snprintf (size : Nat) (text : Bytes) : Bytes := text.take (size - 1)

def isSpace (b : UInt8) : Bool := b = 32 || (9 ≤ b && b ≤ 13)

def isDigit (b : UInt8) : Bool := 48 ≤ b && b ≤ 57

def digits (s : Bytes) : Nat :=
  (s.takeWhile isDigit).foldl (fun n b => 10 * n + (b.toNat - 48)) 0

/-- `atoi`: `strtol` saturates at the bounds of a `long`, the result is cut to an `int`. -/
def atoi (s : Bytes) : Int :=
  toInt32 <| match s.dropWhile isSpace with
    | 45 :: s => max (-2 ^ 63) (-(digits s : Int))
    | 43 :: s => min (2 ^ 63 - 1) (digits s : Int)
    | s => min (2 ^ 63 - 1) (digits s : Int)

/-- `atol`. -/
def atol (s : Bytes) : Int :=
  match s.dropWhile isSpace with
  | 45 :: s => max (-2 ^ 63) (-(digits s : Int))
  | 43 :: s => min (2 ^ 63 - 1) (digits s : Int)
  | s => min (2 ^ 63 - 1) (digits s : Int)

/-- `atoi` where its result is stored in a `UINT`. -/
def atoiUInt (s : Bytes) : UInt32 := UInt32.ofNat (toUInt32 (atoi s))

/-- `strtoul` with base 10, where its result is stored in a `long long`: an overflow gives the
greatest `unsigned long`, a sign negates the rest. -/
def strtoul (s : Bytes) : Int64 :=
  let value (n : Nat) : UInt64 := if n < 2 ^ 64 then UInt64.ofNat n else UInt64.ofNat (2 ^ 64 - 1)
  UInt64.toInt64 <| match s.dropWhile isSpace with
    | 45 :: s => if digits s < 2 ^ 64 then -value (digits s) else value (digits s)
    | 43 :: s => value (digits s)
    | s => value (digits s)

/-- `strncmp` finds no difference in the first `n` characters. -/
def strncmpSame (s t : Bytes) (n : Nat) : Bool := s.take n = t.take n

def tolower (b : UInt8) : UInt8 := if 65 ≤ b ∧ b ≤ 90 then b + 32 else b

/-- The pieces behind the first separator character: `skip` bytes of a separator are still
to be passed, `piece` is what was read since the last one. -/
def strSplitFrom (sep : Bytes) : Nat → Bytes → Bytes → List Bytes
  | _, piece, [] => if piece = [] then [] else [piece]
  | skip + 1, piece, _ :: s => strSplitFrom sep skip piece s
  | 0, piece, b :: s =>
    if sep.isPrefixOf (b :: s) then
      (if piece = [] then [] else [piece]) ++ strSplitFrom sep (sep.length - 1) [] s
    else strSplitFrom sep 0 (piece ++ [b]) s

/-- `AdString::StrSplit`. The characters of the separator are skipped at the front. -/
def strSplit (s sep : Bytes) : List Bytes := strSplitFrom sep 0 [] (s.dropWhile (· ∈ sep))

example : strSplit (ascii "300x250") (ascii "x") = [ascii "300", ascii "250"] := by decide

theorem cStr_append {s : Bytes} (clean : 0 ∉ s) (t : Bytes) : cStr (s ++ t) = s ++ cStr t := by
  refine List.takeWhile_append_of_pos fun b inside => ?_
  simp only [ne_eq, decide_not, Bool.not_eq_true', decide_eq_false_iff_not]
  exact fun zero => clean (zero ▸ inside)

theorem cStr_eq_self {s : Bytes} (clean : 0 ∉ s) : cStr s = s := by
  have whole := cStr_append clean []
  rwa [List.append_nil, show cStr [] = [] from rfl, List.append_nil] at whole

theorem cStr_clean (s : Bytes) : 0 ∉ cStr s := fun inside => by
  simpa using List.mem_takeWhile_imp inside

theorem cStr_length (s : Bytes) : (cStr s).length ≤ s.length := (List.takeWhile_sublist _).length_le

theorem cStr_terminated {s : Bytes} (clean : 0 ∉ s) (t : Bytes) : cStr (s ++ 0 :: t) = s := by
  rw [cStr_append clean, show cStr (0 :: t) = [] from rfl, List.append_nil]

/-- A string that ends before the end of the memory is followed by its terminator. -/
theorem cStr_split {s : Bytes} (short : (cStr s).length < s.length) :
    ∃ t, s = cStr s ++ 0 :: t := by
  induction s with
  | nil => simp at short
  | cons b s ih =>
    by_cases zero : b = 0
    · exact ⟨s, by rw [zero]; rfl⟩
    · have more : cStr (b :: s) = b :: cStr s := by simp [cStr, zero]
      rw [more, List.length_cons, List.length_cons] at short
      obtain ⟨t, split⟩ := ih (by omega)
      exact ⟨t, by rw [more, List.cons_append, ← split]⟩

section Pieces

variable {sep piece s : Bytes}

/-- What was read of a piece is the front of the next one. -/
theorem strSplitFrom_front (some' : piece ≠ []) (s : Bytes) :
    ∃ t pieces, strSplitFrom sep 0 piece s = (piece ++ t) :: pieces ∧ t <+: s := by
  induction s generalizing piece with
  | nil => exact ⟨[], [], by simp [strSplitFrom, some'], List.prefix_rfl⟩
  | cons b s ih =>
    rw [strSplitFrom]
    split
    · refine ⟨[], strSplitFrom sep (sep.length - 1) [] s, ?_, List.nil_prefix⟩
      rw [List.append_nil, List.singleton_append]
    · have longer : piece ++ [b] ≠ [] := by simp
      obtain ⟨t, pieces, split', front⟩ := ih longer
      refine ⟨b :: t, pieces, ?_, (List.cons_prefix_cons).mpr ⟨rfl, front⟩⟩
      rw [split', List.append_assoc, List.singleton_append]

/-- A text without the first character of a separator is read into a piece. -/
theorem strSplitFrom_plain {first : UInt8} {rest a : Bytes} (clean : first ∉ a) (s : Bytes) :
    strSplitFrom (first :: rest) 0 piece (a ++ s) =
      strSplitFrom (first :: rest) 0 (piece ++ a) s := by
  induction a generalizing piece with
  | nil => rw [List.append_nil, List.nil_append]
  | cons b a ih =>
    rw [List.mem_cons, not_or] at clean
    have other : (first :: rest).isPrefixOf (b :: (a ++ s)) = false := by
      simp [List.isPrefixOf, clean.1]
    rw [List.cons_append, strSplitFrom, other, if_neg Bool.false_ne_true, ih clean.2,
      List.append_assoc, List.singleton_append]

/-- A piece that starts with something else than the separator is read as it is. -/
theorem strSplit_eq (some' : s ≠ []) (first : ∀ b ∈ s.head?, b ∉ sep) :
    strSplit s sep = strSplitFrom sep 0 [] s := by
  obtain ⟨b, rest, rfl⟩ := List.exists_cons_of_ne_nil some'
  have other : b ∉ sep := first b rfl
  rw [strSplit, List.dropWhile_cons, if_neg (by simpa using other)]

end Pieces

section Character

variable {sep : UInt8}

theorem strSplitFrom_whole {piece s : Bytes} (clean : sep ∉ s) :
    strSplitFrom [sep] 0 piece s = if piece ++ s = [] then [] else [piece ++ s] := by
  induction s generalizing piece with
  | nil => rw [List.append_nil, strSplitFrom]
  | cons b s ih =>
    rw [List.mem_cons, not_or] at clean
    have other : [sep].isPrefixOf (b :: s) = false := by
      simp [List.isPrefixOf, clean.1]
    rw [strSplitFrom, other, if_neg Bool.false_ne_true, ih clean.2, List.append_assoc]
    rfl

theorem head_notMem {s : Bytes} (clean : sep ∉ s) : ∀ b ∈ s.head?, b ∉ [sep] := by
  intro b starts same
  obtain ⟨rest, rfl⟩ := List.head?_eq_some_iff.mp starts
  exact clean (List.mem_singleton.mp same ▸ List.mem_cons_self)

/-- A text without the separator is one piece. -/
theorem strSplit_whole {s : Bytes} (some' : s ≠ []) (clean : sep ∉ s) : strSplit s [sep] = [s] := by
  rw [strSplit_eq some' (head_notMem clean), strSplitFrom_whole clean, List.nil_append,
    if_neg some']

theorem strSplitFrom_cut {piece a s : Bytes} (clean : sep ∉ a) (some' : piece ++ a ≠ []) :
    strSplitFrom [sep] 0 piece (a ++ sep :: s) = (piece ++ a) :: strSplitFrom [sep] 0 [] s := by
  induction a generalizing piece with
  | nil =>
    rw [List.append_nil] at some'
    have here : [sep].isPrefixOf (sep :: s) = true := by
      simp [List.isPrefixOf]
    rw [List.nil_append, strSplitFrom, here, if_pos rfl, if_neg some', List.append_nil]
    rfl
  | cons b a ih =>
    rw [List.mem_cons, not_or] at clean
    have other : [sep].isPrefixOf (b :: (a ++ sep :: s)) = false := by
      simp [List.isPrefixOf, clean.1]
    rw [List.cons_append, strSplitFrom, other, if_neg Bool.false_ne_true,
      ih clean.2 (by simp), List.append_assoc]
    rfl

/-- The first piece of a text ends in front of the first separator. -/
theorem strSplitFrom_first {a : Bytes} (clean : sep ∉ a) (some' : a ≠ []) (s : Bytes) :
    ∃ pieces, strSplitFrom [sep] 0 [] (a ++ s) =
      (a ++ s.takeWhile (· ≠ sep)) :: pieces := by
  have unsplit : ∀ b ∈ s.takeWhile (· ≠ sep), b ≠ sep := by
    intro b inside
    simpa using List.mem_takeWhile_imp inside
  have front : sep ∉ a ++ s.takeWhile (· ≠ sep) := by
    rw [List.mem_append, not_or]
    exact ⟨clean, fun inside => unsplit sep inside rfl⟩
  have whole : a ++ s = (a ++ s.takeWhile (· ≠ sep)) ++ s.dropWhile (· ≠ sep) := by
    rw [List.append_assoc, List.takeWhile_append_dropWhile]
  cases rest : s.dropWhile (· ≠ sep) with
  | nil =>
    refine ⟨[], ?_⟩
    rw [whole, rest, List.append_nil, strSplitFrom_whole front, List.nil_append,
      if_neg (by simp [some'])]
  | cons b later =>
    have cut : b = sep := by
      have stops := List.head?_dropWhile_not (fun b => decide (b ≠ sep)) s
      rw [rest] at stops
      simpa using stops
    refine ⟨strSplitFrom [sep] 0 [] later, ?_⟩
    rw [whole, rest, cut, strSplitFrom_cut front (by simp [some']), List.nil_append]

end Character

theorem decimal_natCast (n : Nat) :
    decimal n = (Nat.toDigits 10 n).map fun c => UInt8.ofNat c.toNat := by
  have text : toString (n : Int) = String.ofList (Nat.toDigits 10 n) := rfl
  rw [decimal, ascii, text, String.toList_ofList]

theorem decimal_negSucc (n : Nat) : decimal (Int.negSucc n) = 45 :: decimal (n + 1 : Nat) := by
  have text : toString (Int.negSucc n) = "-" ++ String.ofList (Nat.toDigits 10 (n + 1)) := rfl
  rw [decimal_natCast, decimal, ascii, text]
  simp

theorem digit_bounds {n : Nat} {c : Char} (inside : c ∈ Nat.toDigits 10 n) :
    48 ≤ c.toNat ∧ c.toNat ≤ 57 := by
  have digit := Nat.isDigit_of_mem_toDigits (by decide) le_rfl inside
  simp only [Char.isDigit, Bool.and_eq_true, decide_eq_true_eq] at digit
  exact digit

theorem decimal_isDigit {n : Nat} : ∀ b ∈ decimal n, isDigit b := by
  intro b inside
  rw [decimal_natCast] at inside
  obtain ⟨c, listed, rfl⟩ := List.mem_map.mp inside
  obtain ⟨lower, upper⟩ := digit_bounds listed
  simp only [isDigit, Bool.and_eq_true, decide_eq_true_eq, UInt8.le_iff_toNat_le]
  simp
  omega

theorem decimal_ne_nil (n : Int) : decimal n ≠ [] := by
  cases n with
  | ofNat n =>
    change decimal n ≠ []
    rw [decimal_natCast]
    simp
  | negSucc n => simp [decimal_negSucc]

theorem digits_decimal (n : Nat) : digits (decimal n) = n := by
  have whole : (decimal n).takeWhile isDigit = decimal n :=
    List.takeWhile_eq_self_iff.mpr decimal_isDigit
  rw [digits, whole, decimal_natCast, List.foldl_map]
  have value : (Nat.toDigits 10 n).foldl (fun sum c => 10 * sum + (c.toNat - 48)) 0 = n :=
    Nat.ofDigitChars_ten_toDigits
  refine (List.foldl_ext _ _ _ fun sum c listed => ?_).trans value
  have bounds := digit_bounds listed
  rw [UInt8.toNat_ofNat_of_lt' (by rw [UInt8.size]; omega)]

theorem decimal_injective : Function.Injective decimal := by
  -- a decimal without a sign starts with a digit
  have signed : ∀ m n : Nat, decimal m ≠ decimal (Int.negSucc n) := by
    intro m n same
    rw [decimal_negSucc] at same
    have minus := decimal_isDigit (n := m) 45 (by rw [same]; exact List.mem_cons_self)
    exact absurd minus (by decide)
  intro x y same
  cases x with
  | ofNat m =>
    cases y with
    | ofNat n =>
      have value : digits (decimal m) = digits (decimal n) := congrArg digits same
      rw [digits_decimal, digits_decimal] at value
      rw [value]
    | negSucc n => exact absurd same (signed m n)
  | negSucc m =>
    cases y with
    | ofNat n => exact absurd same.symm (signed n m)
    | negSucc n =>
      rw [decimal_negSucc, decimal_negSucc] at same
      have value := congrArg digits (List.cons.inj same).2
      rw [digits_decimal, digits_decimal] at value
      omega

theorem decimalUInt_injective : Function.Injective decimalUInt := by
  intro m n same
  have value := decimal_injective same
  obtain ⟨j, hj⟩ := toInt32_sub_dvd m.toNat
  obtain ⟨k, hk⟩ := toInt32_sub_dvd n.toNat
  have bound := m.toNat_lt
  have bound' := n.toNat_lt
  apply UInt32.toNat_inj.mp
  omega

theorem decimalUInt_length (n : UInt32) : (decimalUInt n).length ≤ 11 := by
  have short : ∀ n : Nat, n ≤ 2 ^ 31 → (decimal n).length ≤ 10 := by
    intro n bound
    rw [decimal_natCast, List.length_map, Nat.length_toDigits_le_iff (by decide) (by decide)]
    omega
  obtain ⟨lower, upper⟩ := toInt32_range n.toNat
  rw [decimalUInt]
  cases value : toInt32 n.toNat with
  | ofNat m =>
    have := short m (by rw [value] at upper; simp at upper; omega)
    simpa using by omega
  | negSucc m =>
    have := short (m + 1) (by rw [value] at lower; omega)
    rw [decimal_negSucc, List.length_cons]
    omega

theorem decimal_bytes (n : Int) : ∀ b ∈ decimal n, isDigit b ∨ b = 45 := by
  intro b inside
  cases n with
  | ofNat n => exact .inl (decimal_isDigit (n := n) b inside)
  | negSucc n =>
    rw [decimal_negSucc] at inside
    rcases List.mem_cons.mp inside with rfl | digit
    · exact .inr rfl
    · exact .inl (decimal_isDigit b digit)

/-- Characters that are neither digits nor a minus sign are in no decimal. -/
theorem notMem_decimal {b : UInt8} (other : ¬ (isDigit b ∨ b = 45)) (n : Int) : b ∉ decimal n :=
  fun inside => other (decimal_bytes n b inside)

theorem notMem_decimalUInt {b : UInt8} (other : ¬ (isDigit b ∨ b = 45)) (n : UInt32) :
    b ∉ decimalUInt n := notMem_decimal other _

@[simp] theorem cStr_decimal (n : Int) : cStr (decimal n) = decimal n :=
  cStr_eq_self (notMem_decimal (by decide) n)

@[simp] theorem cStr_decimalUInt (n : UInt32) : cStr (decimalUInt n) = decimalUInt n :=
  cStr_decimal _

theorem decimalUInt_ofNat {n : Nat} (small : n < 2 ^ 31) :
    decimalUInt (UInt32.ofNat n) = decimal n := by
  rw [decimalUInt, UInt32.toNat_ofNat_of_lt' (by rw [UInt32.size]; omega),
    toInt32_of_range (by omega) (by omega)]

/-- A number that is printed as the decimal of a small one is that number. -/
theorem decimalUInt_eq_decimal {a : UInt32} {n : Nat} (small : n < 2 ^ 31) :
    decimalUInt a = decimal n ↔ a = UInt32.ofNat n := by
  rw [← decimalUInt_ofNat small, decimalUInt_injective.eq_iff]

/-- Digits and a minus sign are not skipped. -/
theorem dropWhile_visible {b : UInt8} (visible : isDigit b ∨ b = 45) (s : Bytes) :
    (b :: s).dropWhile isSpace = b :: s := by
  have solid : isSpace b = false := by
    rcases visible with digit | rfl
    · simp only [isDigit, Bool.and_eq_true, decide_eq_true_eq, UInt8.le_iff_toNat_le] at digit
      simp only [isSpace, Bool.or_eq_false_iff, Bool.and_eq_false_iff, decide_eq_false_iff_not,
        UInt8.le_iff_toNat_le, ← UInt8.toNat_inj]
      simp at digit ⊢
      omega
    · decide
  rw [List.dropWhile_cons, solid]
  rfl

/-- A number that is printed starts with a digit, not with a sign. -/
theorem decimal_head (n : Nat) :
    ∃ b s, decimal n = b :: s ∧ isDigit b ∧ b ≠ 45 ∧ b ≠ 43 := by
  obtain ⟨b, s, printed⟩ := List.exists_cons_of_ne_nil (decimal_ne_nil n)
  have digit : isDigit b := decimal_isDigit (n := n) b (printed ▸ List.mem_cons_self)
  refine ⟨b, s, printed, digit, ?_, ?_⟩
  · rintro rfl
    exact absurd digit (by decide)
  · rintro rfl
    exact absurd digit (by decide)

/-- What `atoi` reads of digits. -/
theorem atoi_range (s : Bytes) : -2 ^ 31 ≤ atoi s ∧ atoi s < 2 ^ 31 := toInt32_range _

theorem atoi_natCast (n : Nat) : atoi (decimal n) = toInt32 (min (2 ^ 63 - 1) (n : Int)) := by
  obtain ⟨b, s, printed, digit, unsigned⟩ := decimal_head n
  have value : digits (b :: s) = n := printed ▸ digits_decimal n
  rw [printed, atoi, dropWhile_visible (.inl digit)]
  split
  · next same => exact absurd (List.cons.inj same).1 unsigned.1
  · next same => exact absurd (List.cons.inj same).1 unsigned.2
  · rw [value]

/-- `strtoul` reads back what has been printed of a `size_t`. -/
theorem strtoul_natCast {n : Nat} (small : n < 2 ^ 64) :
    (strtoul (decimal n)).toUInt64.toNat = n := by
  obtain ⟨b, s, printed, digit, unsigned⟩ := decimal_head n
  have value : digits (b :: s) = n := printed ▸ digits_decimal n
  rw [printed, strtoul, dropWhile_visible (.inl digit)]
  dsimp only
  split
  · next same => exact absurd (List.cons.inj same).1 unsigned.1
  · next same => exact absurd (List.cons.inj same).1 unsigned.2
  · rw [value, if_pos small]
    exact UInt64.toNat_ofNat_of_lt' small

/-- `atoi` reads back what `%d` has printed. -/
theorem atoi_decimal {n : Int} (lower : -2 ^ 31 ≤ n) (upper : n < 2 ^ 31) :
    atoi (decimal n) = n := by
  cases n with
  | ofNat n =>
    have small : (n : Int) < 2 ^ 31 := upper
    change atoi (decimal n) = n
    rw [atoi_natCast, min_eq_right (by omega)]
    exact toInt32_of_range (by omega) small
  | negSucc n =>
    rw [decimal_negSucc, atoi, dropWhile_visible (.inr rfl)]
    change toInt32 (max (-2 ^ 63) (-(digits (decimal (n + 1 : Nat)) : Int))) = _
    rw [digits_decimal, max_eq_right (by omega), toInt32_of_range (by omega) (by omega)]
    omega

theorem atoiUInt_decimalUInt (n : UInt32) : atoiUInt (decimalUInt n) = n := by
  obtain ⟨lower, upper⟩ := toInt32_range n.toNat
  obtain ⟨k, hk⟩ := toInt32_sub_dvd n.toNat
  have bound := n.toNat_lt
  rw [atoiUInt, decimalUInt, atoi_decimal lower upper, ← UInt32.toNat_inj, toUInt32]
  have value : (toInt32 n.toNat % 2 ^ 32).toNat = n.toNat := by omega
  rw [value, UInt32.toNat_ofNat_of_lt' bound]

/-- What is shorter than the buffer is printed whole. -/
theorem snprintf_whole {size : Nat} {s : Bytes} (fits : s.length < size) : snprintf size s = s :=
  List.take_of_length_le (by omega)

theorem snprintf_eq_iff {size : Nat} {s t : Bytes} (fits : t.length + 1 < size) :
    snprintf size s = t ↔ s = t := by
  constructor
  · intro printed
    have length := congrArg List.length printed
    rw [snprintf, List.length_take] at length
    rw [← printed, snprintf_whole (by omega)]
  · rintro rfl
    exact snprintf_whole (by omega)

end CText
