import Mathlib.Tactic.Common
import RtbAdapter.ByteWords

/-!
# Coded addresses

UrlEncode writes a byte as itself, as a plus sign or as an escape, and UrlDecode reads it back.
For a character behind a percent sign that is no letter or digit FromHex returns a variable that
it never set, so that the two copies of the pair need not agree there.
-/

namespace UrlCoding

open ByteWords

/-- In the C locale. -/
def isalnum (b : UInt8) : Bool := (48 ≤ b && b ≤ 57) || (65 ≤ b && b ≤ 90) || (97 ≤ b && b ≤ 122)

def toHex (x : UInt8) : UInt8 := if x > 9 then x + 55 else x + 48

/-- `y` is what stands in the local variable before the branches. -/
def fromHex (y x : UInt8) : UInt8 :=
  if 65 ≤ x ∧ x ≤ 90 then x - 65 + 10
  else if 97 ≤ x ∧ x ≤ 122 then x - 97 + 10
  else if 48 ≤ x ∧ x ≤ 57 then x - 48
  else y

/-- Characters that stand for themselves. -/
def plain (b : UInt8) : Bool := isalnum b || b = 45 || b = 95 || b = 46 || b = 126

def encodeByte (b : UInt8) : Bytes :=
  if plain b then [b]
  else if b = 32 then [43]
  else [37, toHex (b >>> 4), toHex (b % 16)]

def encode (str : Bytes) : Bytes := str.flatMap encodeByte

/-- The loop from position `i` on. `y i` is the local variable of FromHex for the character at `i`.
A percent sign with less than two characters behind it is left out. -/
def decodeFrom (y : Nat → UInt8) : Nat → Bytes → Bytes
  | _, [] => []
  | i, b :: rest =>
    if b = 43 then 32 :: decodeFrom y (i + 1) rest
    else if b = 37 then
      match rest with
      | high :: low :: rest =>
        (fromHex (y (i + 1)) high * 16 + fromHex (y (i + 2)) low) :: decodeFrom y (i + 3) rest
      | rest => decodeFrom y (i + 1) rest
    else b :: decodeFrom y (i + 1) rest

/-- The pair in AdProtocolBase. -/
def protocolUrlEncode (str sDst : Bytes) : Bytes := sDst ++ encode str

def protocolUrlDecode (y : Nat → UInt8) (str sDst : Bytes) : Bytes := sDst ++ decodeFrom y 0 str

/-- The pair in AdAdx, with the same bodies. -/
def adxUrlEncode (str sDst : Bytes) : Bytes := sDst ++ encode str

def adxUrlDecode (y : Nat → UInt8) (str sDst : Bytes) : Bytes := sDst ++ decodeFrom y 0 str

/-- Upper-case hexadecimal digits. -/
def upperHex (b : UInt8) : Bool := (48 ≤ b && b ≤ 57) || (65 ≤ b && b ≤ 70)

/-- Plain characters, plus signs and whole escapes only. -/
def wellFormed : Bytes → Bool
  | [] => true
  | b :: rest =>
    if b = 37 then
      match rest with
      | high :: low :: rest => upperHex high && upperHex low && wellFormed rest
      | _ => false
    else (plain b || b = 43) && wellFormed rest

/-- The law of the pair for one string, whatever stands in the local variables. -/
structure Law (str : Bytes) : Prop where
  back : ∀ y, protocolUrlDecode y (protocolUrlEncode str []) [] = str
  back' : ∀ y, adxUrlDecode y (adxUrlEncode str []) [] = str
  alphabet : wellFormed (protocolUrlEncode str [])
  alphabet' : wellFormed (adxUrlEncode str [])
  encodeSame : protocolUrlEncode str [] = adxUrlEncode str []
  decodeSame : ∀ y y', protocolUrlDecode y str [] = adxUrlDecode y' str []

/-- Behind each percent sign that is read as an escape stand two letters or digits. -/
def digitsBehind : Bytes → Bool
  | [] => true
  | b :: rest =>
    if b = 37 then
      match rest with
      | high :: low :: rest => isalnum high && isalnum low && digitsBehind rest
      | rest => digitsBehind rest
    else digitsBehind rest

theorem fromHex_digit {x : UInt8} (digit : isalnum x) (y : UInt8) : fromHex y x = fromHex 0 x := by
  simp only [isalnum, Bool.or_eq_true, Bool.and_eq_true, decide_eq_true_eq] at digit
  rw [fromHex, fromHex]
  by_cases upper : 65 ≤ x ∧ x ≤ 90
  · rw [if_pos upper, if_pos upper]
  · by_cases lower : 97 ≤ x ∧ x ≤ 122
    · rw [if_neg upper, if_pos lower, if_neg upper, if_pos lower]
    · have number : 48 ≤ x ∧ x ≤ 57 := by tauto
      rw [if_neg upper, if_neg lower, if_pos number, if_neg upper, if_neg lower, if_pos number]

theorem fromHex_other {x : UInt8} (other : isalnum x = false) (y : UInt8) : fromHex y x = y := by
  simp only [isalnum, Bool.or_eq_false_iff, Bool.and_eq_false_imp, decide_eq_true_eq,
    decide_eq_false_iff_not] at other
  rw [fromHex, if_neg fun both => other.1.2 both.1 both.2, if_neg fun both => other.2 both.1 both.2,
    if_neg fun both => other.1.1 both.1 both.2]

theorem decodeFrom_plain (y : Nat → UInt8) {b : UInt8} (here : plain b) (i : Nat) (rest : Bytes) :
    decodeFrom y i (b :: rest) = b :: decodeFrom y (i + 1) rest := by
  have signs : ∀ b, plain b → b ≠ 43 ∧ b ≠ 37 := forall_byte (by decide +kernel)
  rw [decodeFrom.eq_def]
  simp [signs b here]

theorem decodeFrom_escape (y : Nat → UInt8) (high low : UInt8) (i : Nat) (rest : Bytes) :
    decodeFrom y i (37 :: high :: low :: rest) =
      (fromHex (y (i + 1)) high * 16 + fromHex (y (i + 2)) low) :: decodeFrom y (i + 3) rest := by
  rw [decodeFrom.eq_def]
  rfl

theorem nibbles : ∀ b : UInt8, isalnum (toHex (b >>> 4)) ∧ isalnum (toHex (b % 16)) ∧
    fromHex 0 (toHex (b >>> 4)) * 16 + fromHex 0 (toHex (b % 16)) = b :=
  forall_byte (by decide +kernel)

/-- What one byte is coded as is read back as this byte. -/
theorem decodeFrom_encodeByte (y : Nat → UInt8) (b : UInt8) (i : Nat) (rest : Bytes) :
    ∃ j, decodeFrom y i (encodeByte b ++ rest) = b :: decodeFrom y j rest := by
  rw [encodeByte]
  by_cases here : plain b
  · rw [if_pos here]
    exact ⟨i + 1, decodeFrom_plain y here i rest⟩
  · rw [if_neg here]
    by_cases space : b = 32
    · rw [if_pos space, space, List.singleton_append, decodeFrom.eq_def]
      exact ⟨i + 1, rfl⟩
    · rw [if_neg space]
      obtain ⟨high, low, value⟩ := nibbles b
      refine ⟨i + 3, (decodeFrom_escape y _ _ i rest).trans ?_⟩
      rw [fromHex_digit high, fromHex_digit low, value]

theorem decodeFrom_encode (y : Nat → UInt8) (str : Bytes) (i : Nat) :
    decodeFrom y i (encode str) = str := by
  induction str generalizing i with
  | nil => rfl
  | cons b str ih =>
    obtain ⟨j, first⟩ := decodeFrom_encodeByte y b i (encode str)
    rw [encode, List.flatMap_cons, ← encode, first, ih]

theorem wellFormed_encodeByte (b : UInt8) (rest : Bytes) :
    wellFormed (encodeByte b ++ rest) = wellFormed rest := by
  have signs : ∀ b, plain b → b ≠ 37 := forall_byte (by decide +kernel)
  have digits : ∀ b : UInt8, upperHex (toHex (b >>> 4)) ∧ upperHex (toHex (b % 16)) :=
    forall_byte (by decide +kernel)
  rw [encodeByte]
  by_cases here : plain b
  · rw [if_pos here, List.singleton_append, wellFormed.eq_def]
    simp [signs b here, here]
  · rw [if_neg here]
    by_cases space : b = 32
    · rw [if_pos space, List.singleton_append, wellFormed.eq_def]
      rfl
    · rw [if_neg space, List.cons_append, wellFormed.eq_def]
      simp [digits b]

theorem wellFormed_encode (str : Bytes) : wellFormed (encode str) := by
  induction str with
  | nil => rfl
  | cons b str ih => rw [encode, List.flatMap_cons, ← encode, wellFormed_encodeByte, ih]

theorem decodeFrom_other {b : UInt8} (other : b ≠ 37) (i : Nat) (rest : Bytes) :
    ∃ c, ∀ y, decodeFrom y i (b :: rest) = c :: decodeFrom y (i + 1) rest := by
  by_cases plus : b = 43
  · exact ⟨32, fun y => by rw [decodeFrom.eq_def]; simp [plus]⟩
  · exact ⟨b, fun y => by rw [decodeFrom.eq_def]; simp [plus, other]⟩

theorem decodeFrom_short {rest : Bytes}
    (short : ∀ high low more, rest = high :: low :: more → False)
    (y : Nat → UInt8) (i : Nat) : decodeFrom y i (37 :: rest) = decodeFrom y (i + 1) rest := by
  match rest, short with
  | [], _ => rfl
  | [b], _ => rfl
  | high :: low :: more, short => exact (short high low more rfl).elim

theorem escape_agrees_iff (high low : UInt8) (i j : Nat) :
    (∀ y y' : Nat → UInt8, fromHex (y i) high * 16 + fromHex (y j) low =
      fromHex (y' i) high * 16 + fromHex (y' j) low) ↔ isalnum high ∧ isalnum low := by
  constructor
  · intro same
    have zeroOne := same (fun _ => 0) fun _ => 1
    cases first : isalnum high <;> cases second : isalnum low
    · rw [fromHex_other first, fromHex_other first, fromHex_other second,
        fromHex_other second] at zeroOne
      exact absurd zeroOne (by decide)
    · rw [fromHex_other first, fromHex_other first, fromHex_digit second 1,
        UInt8.add_left_inj] at zeroOne
      exact absurd zeroOne (by decide)
    · rw [fromHex_digit first 1, fromHex_other second, fromHex_other second,
        UInt8.add_right_inj] at zeroOne
      exact absurd zeroOne (by decide)
    · exact ⟨rfl, rfl⟩
  · rintro ⟨first, second⟩ y y'
    rw [fromHex_digit first (y i), fromHex_digit first (y' i), fromHex_digit second (y j),
      fromHex_digit second (y' j)]

/-- The variables show through exactly behind a percent sign without two letters or digits. -/
theorem decodeFrom_agree_iff (str : Bytes) (i : Nat) :
    (∀ y y', decodeFrom y i str = decodeFrom y' i str) ↔ digitsBehind str := by
  fun_induction digitsBehind str generalizing i with
  | case1 => simp [decodeFrom]
  | case2 high low rest ih =>
    simp only [decodeFrom_escape, List.cons.injEq, forall_and, Bool.and_eq_true]
    rw [escape_agrees_iff high low (i + 1) (i + 2), ih]
  | case3 rest short ih =>
    simp only [decodeFrom_short short, ih]
  | case4 b rest other ih =>
    obtain ⟨c, reads⟩ := decodeFrom_other other i rest
    simp only [reads, List.cons.injEq, true_and, ih]

/-- **The law of the pair.** It holds for the strings whose escapes are of letters and digits. -/
theorem law_iff (str : Bytes) : Law str ↔ digitsBehind str := by
  constructor
  · intro law
    refine (decodeFrom_agree_iff str 0).mp fun y y' => ?_
    simpa [protocolUrlDecode, adxUrlDecode] using law.decodeSame y y'
  · intro digits
    have agree := (decodeFrom_agree_iff str 0).mpr digits
    exact ⟨fun y => decodeFrom_encode y str 0, fun y => decodeFrom_encode y str 0,
      wellFormed_encode str, wellFormed_encode str, rfl, agree⟩

/-- A percent sign before a blank. -/
theorem escape_disagrees : ¬ Law (ascii "100% !") := by
  intro law
  exact absurd (law.decodeSame (fun _ => 0) fun _ => 1) (by decide +kernel)

end UrlCoding
