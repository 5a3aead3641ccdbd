import Mathlib.Tactic.IntervalCases
import RtbAdapter.ByteWords

/-!
# Base64 texts

BaseEncode writes three bytes as four characters. BaseDecode counts the characters whose entry
in a table is not 0x80 and decodes them in groups of four. The initialiser of the table sets its
first entry only, so that a foreign character is read as the letter A.
-/

namespace BaseCoding

open ByteWords

def adFailure : Int := -1

def sBase : Bytes := ascii "ABCDEFGHIJKLMNOPQRSTUVWXYZabcdefghijklmnopqrstuvwxyz0123456789+/"

def letter (v : UInt8) : UInt8 := sBase.getD v.toNat 0

/-- The groups of three bytes and the rest with its equals signs. -/
def encodeText : Bytes → Bytes
  | a :: b :: c :: rest =>
    letter (a >>> 2) :: letter (((a &&& 0x03) <<< 4) ||| (b >>> 4)) ::
      letter (((b &&& 0x0f) <<< 2) ||| (c >>> 6)) :: letter (c &&& 0x3f) :: encodeText rest
  | [a, b] =>
    [letter (a >>> 2), letter (((a &&& 0x03) <<< 4) ||| (b >>> 4)),
      letter ((b &&& 0x0f) <<< 2), 61]
  | [a] => [letter (a >>> 2), letter ((a &&& 0x03) <<< 4), 61, 61]
  | [] => []

/-- What BaseEncode returns and writes. The bound is computed in `int`. -/
def baseEncode (src : Bytes) (iDst : Int) : Int × Bytes :=
  let iSrc : Int := src.length
  if toInt32 (toInt32 (iSrc + 3 - iSrc % 3) * 4) / 3 + 1 > iDst then (adFailure, [])
  else (toInt32 (encodeText src).length, encodeText src)

/-- `UCHAR sTable[256] = { 0x80 }` and the assignments after it. -/
def sTable : UInt8 → UInt8 :=
  Function.update (sBase.zipIdx.foldl
    (fun table entry => Function.update table entry.1 (UInt8.ofNat entry.2))
    fun c => if c = 0 then 0x80 else 0) 61 0

/-- The bytes of the groups of four characters. -/
def decodeBlocks : Bytes → Bytes
  | a :: b :: c :: d :: rest =>
    ((sTable a <<< 2) ||| (sTable b >>> 4)) :: ((sTable b <<< 4) ||| (sTable c >>> 2)) ::
      ((sTable c <<< 6) ||| sTable d) :: decodeBlocks rest
  | _ => []

/-- How many bytes the equals signs take back. `sIn` holds the last four characters. -/
def takenBack (sIn : Bytes) : Nat :=
  if sIn[2]? = some 61 then 2 else if sIn[3]? = some 61 then 1 else 0

/-- The characters that count. -/
def counted (src : Bytes) : Bytes := src.filter fun c => 0x80 ≠ sTable c

/-- What BaseDecode returns and writes up to the returned length. -/
def baseDecode (src : Bytes) (iDst : Int) : Int × Bytes :=
  let iCount := (counted src).length
  if iCount % 4 = 0 ∧ ((iCount / 4 * 3 : Nat) : Int) ≤ iDst then
    let out := decodeBlocks (counted src)
    let out := if out = [] then out
      else out.take (out.length - takenBack ((counted src).drop (iCount - 4)))
    (toInt32 out.length, out)
  else (adFailure, [])

/-- Characters that are not removed from a text. -/
def inAlphabet (c : UInt8) : Bool := c ∈ sBase || c = 61

theorem letter_spec : ∀ v, v < 64 → sTable (letter v) = v ∧ letter v ∈ sBase ∧ letter v ≠ 61 :=
  forall_byte (by decide +kernel)

theorem update_ne {entries : List (UInt8 × Nat)} {table : UInt8 → UInt8} {c : UInt8}
    (values : ∀ entry ∈ entries, UInt8.ofNat entry.2 ≠ 0x80) (start : table c ≠ 0x80) :
    entries.foldl (fun table entry => Function.update table entry.1 (UInt8.ofNat entry.2)) table c ≠
      0x80 := by
  induction entries generalizing table with
  | nil => exact start
  | cons entry entries ih =>
    refine ih (fun other inside => values other (List.mem_cons_of_mem _ inside)) ?_
    change Function.update table entry.1 (UInt8.ofNat entry.2) c ≠ 0x80
    by_cases here : c = entry.1
    · rw [here, Function.update_self]
      exact values entry List.mem_cons_self
    · rwa [Function.update_of_ne here]

/-- Only the terminator has the entry 0x80. -/
theorem counted_iff (c : UInt8) : 0x80 ≠ sTable c ↔ c ≠ 0 := by
  constructor
  · rintro other rfl
    exact other (by decide +kernel)
  · intro other same
    rw [sTable] at same
    by_cases sign : c = 61
    · rw [sign, Function.update_self] at same
      exact absurd same (by decide)
    · rw [Function.update_of_ne sign] at same
      exact update_ne (by decide +kernel) (by rw [if_neg other]; decide) same.symm

theorem zero_foreign : inAlphabet 0 = false := by decide +kernel

theorem encodeText_length (x : Bytes) : (encodeText x).length = (x.length + 2) / 3 * 4 := by
  fun_induction encodeText x with
  | case1 a b c rest ih =>
    simp only [List.length_cons, ih]
    omega
  | case2 => simp
  | case3 => simp
  | case4 => rfl

theorem decodeBlocks_length (sig : Bytes) : (decodeBlocks sig).length = sig.length / 4 * 3 := by
  fun_induction decodeBlocks sig with
  | case1 a b c d rest ih =>
    simp only [List.length_cons, ih]
    omega
  | case2 sig short =>
    match sig, short with
    | [], _ | [_], _ | [_, _], _ | [_, _, _], _ => simp
    | a :: b :: c :: d :: rest, short => exact (short a b c d rest rfl).elim

theorem first_byte (a b : UInt8) :
    (a >>> 2) <<< 2 ||| ((a &&& 0x03) <<< 4 ||| b >>> 4) >>> 4 = a := by
  rw [← UInt8.toBitVec_inj]
  refine BitVec.eq_of_getLsbD_eq fun i inside => ?_
  interval_cases i <;> simp

theorem second_byte (a b c : UInt8) :
    ((a &&& 0x03) <<< 4 ||| b >>> 4) <<< 4 ||| ((b &&& 0x0f) <<< 2 ||| c >>> 6) >>> 2 = b := by
  rw [← UInt8.toBitVec_inj]
  refine BitVec.eq_of_getLsbD_eq fun i inside => ?_
  interval_cases i <;> simp

theorem third_byte (b c : UInt8) :
    ((b &&& 0x0f) <<< 2 ||| c >>> 6) <<< 6 ||| (c &&& 0x3f) = c := by
  rw [← UInt8.toBitVec_inj]
  refine BitVec.eq_of_getLsbD_eq fun i inside => ?_
  interval_cases i <;> simp

theorem below_64 : ∀ v : UInt8, v &&& 0x3f = v → v < 64 := forall_byte (by decide +kernel)

theorem six_bits (a b : UInt8) : a >>> 2 < 64 ∧ ((a &&& 0x03) <<< 4 ||| b >>> 4) < 64 ∧
    ((a &&& 0x0f) <<< 2 ||| b >>> 6) < 64 ∧ a &&& 0x3f < 64 := by
  refine ⟨below_64 _ ?_, below_64 _ ?_, below_64 _ ?_, below_64 _ ?_⟩
  all_goals
    rw [← UInt8.toBitVec_inj]
    refine BitVec.eq_of_getLsbD_eq fun i inside => ?_
    interval_cases i <;> simp

/-- The bytes without those that the equals signs take back. -/
def trimmed (sig : Bytes) : Bytes :=
  (decodeBlocks sig).take ((decodeBlocks sig).length - takenBack (sig.drop (sig.length - 4)))

theorem takenBack_le (sIn : Bytes) : takenBack sIn ≤ 2 := by
  rw [takenBack]
  split_ifs <;> omega

theorem trimmed_more {a b c d : UInt8} {sig : Bytes} (groups : 4 ≤ sig.length) :
    trimmed (a :: b :: c :: d :: sig) =
      (sTable a <<< 2 ||| sTable b >>> 4) :: (sTable b <<< 4 ||| sTable c >>> 2) ::
        (sTable c <<< 6 ||| sTable d) :: trimmed sig := by
  have last : (a :: b :: c :: d :: sig).drop ((a :: b :: c :: d :: sig).length - 4) =
      sig.drop (sig.length - 4) := by
    have size : (a :: b :: c :: d :: sig).length - 4 = sig.length - 4 + 4 := by simp; omega
    rw [size, List.drop_succ_cons, List.drop_succ_cons, List.drop_succ_cons, List.drop_succ_cons]
  have back := takenBack_le (sig.drop (sig.length - 4))
  have bytes := decodeBlocks_length sig
  have size : (decodeBlocks (a :: b :: c :: d :: sig)).length -
      takenBack (sig.drop (sig.length - 4)) =
      (decodeBlocks sig).length - takenBack (sig.drop (sig.length - 4)) + 3 := by
    rw [decodeBlocks]
    simp only [List.length_cons]
    omega
  rw [trimmed, last, size, decodeBlocks, List.take_succ_cons, List.take_succ_cons,
    List.take_succ_cons, trimmed]

theorem trimmed_last (a b c d : UInt8) : trimmed [a, b, c, d] =
    [(sTable a <<< 2) ||| (sTable b >>> 4), (sTable b <<< 4) ||| (sTable c >>> 2),
      (sTable c <<< 6) ||| sTable d].take
        (3 - if c = 61 then 2 else if d = 61 then 1 else 0) := by
  rw [trimmed, takenBack]
  simp [decodeBlocks]

/-- The text of BaseEncode is decoded to the bytes, the equals signs included. -/
theorem trimmed_encodeText (x : Bytes) : trimmed (encodeText x) = x := by
  have noBits : ∀ v : UInt8, v ||| (0 : UInt8) >>> 4 = v ∧ v ||| (0 : UInt8) >>> 6 = v :=
    fun v => by simp
  fun_induction encodeText x with
  | case1 a b c rest ih =>
    obtain ⟨first, second, -, -⟩ := six_bits a b
    obtain ⟨-, -, third, -⟩ := six_bits b c
    obtain ⟨-, -, -, fourth⟩ := six_bits c c
    cases rest with
    | nil =>
      rw [encodeText, trimmed_last, if_neg (letter_spec _ third).2.2,
        if_neg (letter_spec _ fourth).2.2, (letter_spec _ first).1, (letter_spec _ second).1,
        (letter_spec _ third).1, (letter_spec _ fourth).1, first_byte, second_byte, third_byte]
      rfl
    | cons r rest =>
      have groups : 4 ≤ (encodeText (r :: rest)).length := by
        rw [encodeText_length, List.length_cons]
        omega
      rw [trimmed_more groups, ih, (letter_spec _ first).1, (letter_spec _ second).1,
        (letter_spec _ third).1, (letter_spec _ fourth).1, first_byte, second_byte, third_byte]
  | case2 a b =>
    obtain ⟨first, second, -, -⟩ := six_bits a b
    obtain ⟨-, -, third, -⟩ := six_bits b 0
    have second' := second_byte a b 0
    rw [(noBits _).2] at third second'
    rw [trimmed_last, if_neg (letter_spec _ third).2.2, if_pos rfl, (letter_spec _ first).1,
      (letter_spec _ second).1, (letter_spec _ third).1, first_byte, second']
    rfl
  | case3 a =>
    obtain ⟨first, second, -, -⟩ := six_bits a 0
    have first' := first_byte a 0
    rw [(noBits _).1] at second first'
    rw [trimmed_last, if_pos rfl, (letter_spec _ first).1, (letter_spec _ second).1, first']
    rfl
  | case4 => rfl

theorem counted_eq (t : Bytes) : counted t = t.filter (· ≠ 0) := by
  refine List.filter_congr fun c _ => ?_
  rw [decide_eq_decide]
  exact counted_iff c

theorem counted_clean {t : Bytes} (clean : ∀ c ∈ t, inAlphabet c = false → c = 0) :
    counted t = t.filter inAlphabet := by
  rw [counted_eq]
  refine List.filter_congr fun c inside => ?_
  cases known : inAlphabet c with
  | true =>
    have other : c ≠ 0 := fun zero => by
      rw [zero, zero_foreign] at known
      cases known
    exact decide_eq_true other
  | false => rw [clean c inside known]; rfl

theorem counted_foreign {t : Bytes} {c : UInt8} (inside : c ∈ t) (foreign : inAlphabet c = false)
    (other : c ≠ 0) : (t.filter inAlphabet).length < (counted t).length := by
  have known : t.filter inAlphabet = (counted t).filter inAlphabet := by
    rw [counted_eq, List.filter_filter]
    refine List.filter_congr fun b _ => ?_
    cases letter : inAlphabet b with
    | true =>
      have other : b ≠ 0 := fun zero => by
        rw [zero, zero_foreign] at letter
        cases letter
      rw [decide_eq_true other, Bool.and_self]
    | false => rw [Bool.false_and]
  rw [known]
  refine List.length_filter_lt_length_iff_exists.mpr ⟨c, ?_, by simp [foreign]⟩
  rw [counted_eq]
  exact List.mem_filter.mpr ⟨inside, decide_eq_true other⟩

theorem baseDecode_eq (src : Bytes) (iDst : Int) :
    baseDecode src iDst = if (counted src).length % 4 = 0 ∧
        (((counted src).length / 4 * 3 : Nat) : Int) ≤ iDst then
      (toInt32 (trimmed (counted src)).length, trimmed (counted src)) else (adFailure, []) := by
  have same : (if decodeBlocks (counted src) = [] then decodeBlocks (counted src)
      else (decodeBlocks (counted src)).take ((decodeBlocks (counted src)).length -
        takenBack ((counted src).drop ((counted src).length - 4)))) = trimmed (counted src) := by
    rw [trimmed]
    split
    · rename_i none
      rw [none, List.take_nil]
    · rfl
  simp only [baseDecode, same]

/-- **Texts with foreign characters.** BaseDecode gives back the bytes if every character that is
not of the alphabet is a terminator, and otherwise it does not. -/
theorem baseDecode_iff (x t text : Bytes) (iDst iDst' : Int) (size : t.length < 2 ^ 31)
    (encoded : baseEncode x iDst = ((text.length : Int), text)) (same : t.filter inAlphabet = text)
    (room : ((t.length / 4 * 3 : Nat) : Int) ≤ iDst') :
    baseDecode t iDst' = ((x.length : Int), x) ↔ ∀ c ∈ t, inAlphabet c = false → c = 0 := by
  have written : text = encodeText x := by
    simp only [baseEncode] at encoded
    split at encoded
    · obtain ⟨long, -⟩ := Prod.mk.inj encoded
      rw [adFailure] at long
      omega
    · exact (Prod.mk.inj encoded).2.symm
  have kept : (counted t).length ≤ t.length := List.length_filter_le _ _
  have length := encodeText_length x
  rw [baseDecode_eq]
  constructor
  · intro decoded c inside foreign
    by_contra other
    have more := counted_foreign inside foreign other
    rw [same, written] at more
    split at decoded
    · rename_i groups
      obtain ⟨-, bytes⟩ := Prod.mk.inj decoded
      have back := takenBack_le ((counted t).drop ((counted t).length - 4))
      have long := congrArg List.length bytes
      rw [trimmed, List.length_take, decodeBlocks_length] at long
      omega
    · obtain ⟨long, -⟩ := Prod.mk.inj decoded
      rw [adFailure] at long
      omega
  · intro clean
    have whole : counted t = encodeText x := by rw [counted_clean clean, same, written]
    rw [whole] at kept ⊢
    rw [if_pos ⟨by omega, by omega⟩, trimmed_encodeText, toInt32_of_range (by omega) (by omega)]

/-- A NUL among the characters is passed over. -/
theorem abc_decode_iff :
    baseDecode (ascii "YW\x00Jj") 3 = (((ascii "abc").length : Int), ascii "abc") ↔
      ∀ c ∈ ascii "YW\x00Jj", inAlphabet c = false → c = 0 :=
  baseDecode_iff (ascii "abc") (ascii "YW\x00Jj") (ascii "YWJj") 9 3 (by decide) (by decide)
    (by decide) (by decide)

/-- A line break behind the text counts as a fifth character. -/
theorem lineBreak_fails : baseEncode (ascii "abc") 9 = ((4 : Int), ascii "YWJj") ∧
    (ascii "YWJj\n").filter inAlphabet = ascii "YWJj" ∧
    baseDecode (ascii "YWJj\n") 100 ≠ ((3 : Int), ascii "abc") := by decide +kernel

end BaseCoding
