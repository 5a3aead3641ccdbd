import Mathlib.Data.List.DropRight
import Mathlib.Data.List.GetD
import RtbAdapter.AesBlock
import RtbAdapter.CText

/-!
# Ciphered texts

The text is filled up to whole blocks, each block is ciphered and written as hexadecimal digits
by routines for strings. A zero byte in a ciphered block ends the string there, and the blocks
behind it are lost. Small bytes at the end of the deciphered text count as filling.
-/

namespace AesText

open ByteWords CText AesBlock

def valueToHexCh (value : Nat) : UInt8 :=
  if value ≤ 9 then UInt8.ofNat (value + 48)
  else if value ≤ 15 then UInt8.ofNat (value - 10 + 65)
  else 0

/-- Letters up to z count as digits. -/
def ascillToValue (ch : UInt8) : Option Nat :=
  if 48 ≤ ch ∧ ch ≤ 57 then some (ch.toNat - 48)
  else if 97 ≤ ch ∧ ch ≤ 122 then some (ch.toNat - 97 + 10)
  else if 65 ≤ ch ∧ ch ≤ 90 then some (ch.toNat - 65 + 10)
  else none

def hexOf (bytes : Bytes) : Bytes :=
  bytes.flatMap fun tmp => [valueToHexCh (tmp.toNat / 16), valueToHexCh (tmp.toNat % 16)]

/-- What ucharToHex leaves in `hex`, as the text up to its terminator: nothing new for an empty
string. -/
def ucharToHex (uch : Bytes) (hex : Option Bytes) : Option Bytes :=
  if cStr uch = [] then hex else some (hexOf (cStr uch))

/-- The bytes of the pairs of digits and the terminator, at the first other character too. -/
def hexPairs : Bytes → Bytes
  | high :: low :: rest =>
    match ascillToValue high, ascillToValue low with
    | some high, some low => UInt8.ofNat (high * 16 + low) :: hexPairs rest
    | _, _ => [0]
  | _ => [0]

/-- What hexToUChar writes. -/
def hexToUChar (hex : Bytes) : Bytes := if hex.length % 2 = 1 then [] else hexPairs hex

/-- What strncpy writes: the string and zeros up to `n` bytes. -/
def strncpy (n : Nat) (src : Bytes) : Bytes := (cStr src ++ List.replicate n 0).take n

def blockAt (bytes : Bytes) (i : Nat) : Block := Vector.ofFn fun k => bytes.getD (i + k) 0

/-- `newAlock` up to its terminator. -/
def newAlock (input : Bytes) : Bytes :=
  input ++ List.replicate (16 - input.length % 16) (UInt8.ofNat (16 - input.length % 16))

/-- `block` has no terminator, and strToUChar goes on with what stands behind it on the stack. -/
def cipherText (w : Schedule) (block : Block) (stack : Bytes) (output : Option Bytes) :
    Option Bytes :=
  ucharToHex ((cipher w block).toList ++ cStr stack) output

/-- One turn of Bm53Cipher with `e_block` and what stands in `output`. Reading `e_block` before
it was written is undefined. -/
def cipherTurn (w : Schedule) (stack : Nat → Bytes) (text : Bytes) (done : Option Bytes × Bytes)
    (n : Nat) : Option (Option Bytes × Bytes) :=
  (cipherText w (blockAt text (16 * n)) (stack n) done.1).map fun eBlock =>
    (some eBlock, done.2 ++ strncpy 32 eBlock)

/-- The string in `output`. The loop ends at the terminator of `newAlock`, which follows a whole
block. -/
def bm53Cipher (w : Schedule) (stack : Nat → Bytes) (input : Bytes) : Option Bytes :=
  ((List.range ((newAlock input).length / 16)).foldlM (cipherTurn w stack (newAlock input))
    (none, [])).map fun done => cStr done.2

/-- One turn of Bm53InvCipher. Bytes of `uch_input` that were not written are undefined. -/
def invTurn (w : Schedule) (uchInput : Bytes) (uchOutput : Bytes) (n : Nat) : Option Bytes :=
  if 16 * n + 16 ≤ uchInput.length then
    some (uchOutput ++ (invCipher w (blockAt uchInput (16 * n))).toList)
  else none

def small (b : UInt8) : Bool := 1 ≤ b && b ≤ 16

/-- The loop that takes small bytes off the end. The byte before `output` is undefined. -/
def stripped : Nat → Bytes → Option Bytes
  | 0, output => some output
  | n + 1, output =>
    match output.getLast? with
    | none => none
    | some last => if small last then stripped n output.dropLast else some output

def bm53InvCipher (w : Schedule) (input : Bytes) : Option Bytes :=
  ((List.range ((input.length / 2 + 15) / 16)).foldlM (invTurn w (hexToUChar input)) []).bind
    fun uchOutput => stripped 16 (cStr uchOutput)

theorem hexOf_append (a b : Bytes) : hexOf (a ++ b) = hexOf a ++ hexOf b := List.flatMap_append

theorem hexOf_cons (b : UInt8) (a : Bytes) : hexOf (b :: a) =
    valueToHexCh (b.toNat / 16) :: valueToHexCh (b.toNat % 16) :: hexOf a := rfl

theorem hexOf_length (a : Bytes) : (hexOf a).length = 2 * a.length := by
  induction a with
  | nil => rfl
  | cons b a ih =>
    rw [hexOf_cons, List.length_cons, List.length_cons, List.length_cons, ih]
    omega

theorem digit_value : ∀ n < 16, ascillToValue (valueToHexCh n) = some n ∧ valueToHexCh n ≠ 0 := by
  decide

theorem hexOf_clean (a : Bytes) : 0 ∉ hexOf a := by
  intro inside
  obtain ⟨b, -, digit⟩ := List.mem_flatMap.mp inside
  have below : b.toNat < 256 := b.toNat_lt
  rcases List.mem_cons.mp digit with high | low
  · exact (digit_value (b.toNat / 16) (by omega)).2 high.symm
  · exact (digit_value (b.toNat % 16) (by omega)).2 (List.mem_singleton.mp low).symm

theorem hexPairs_hexOf (a rest : Bytes) : hexPairs (hexOf a ++ rest) = a ++ hexPairs rest := by
  induction a with
  | nil => rfl
  | cons b a ih =>
    have below : b.toNat < 256 := b.toNat_lt
    have value : b.toNat / 16 * 16 + b.toNat % 16 = b.toNat := by omega
    rw [hexOf_cons, List.cons_append, List.cons_append, hexPairs,
      (digit_value (b.toNat / 16) (by omega)).1, (digit_value (b.toNat % 16) (by omega)).1]
    simp only [value, UInt8.ofNat_toNat, ih, List.cons_append]

theorem hexToUChar_hexOf (a : Bytes) : hexToUChar (hexOf a) = a ++ [0] := by
  have even : ¬ (hexOf a).length % 2 = 1 := by
    rw [hexOf_length]
    omega
  have pairs := hexPairs_hexOf a []
  rw [List.append_nil] at pairs
  rw [hexToUChar, if_neg even, pairs]
  rfl

theorem strncpy_long {c : Bytes} (long : c.length = 16) (t : Bytes) :
    strncpy 32 (hexOf (c ++ t)) = hexOf c := by
  have size : (hexOf c).length = 32 := by rw [hexOf_length, long]
  rw [strncpy, cStr_eq_self (hexOf_clean _), hexOf_append, List.append_assoc,
    List.take_left' size]

theorem strncpy_short {c : Bytes} (short : c.length < 16) :
    ∃ t, strncpy 32 (hexOf c) = hexOf c ++ 0 :: t := by
  have size := hexOf_length c
  refine ⟨List.replicate (31 - 2 * c.length) 0, ?_⟩
  rw [strncpy, cStr_eq_self (hexOf_clean _), List.take_append, List.take_of_length_le (by omega),
    List.take_replicate, ← List.replicate_succ]
  congr 2
  omega

def joined (f : Nat → Block) (n : Nat) : Bytes := (List.range n).flatMap fun i => (f i).toList

theorem joined_succ (f : Nat → Block) (n : Nat) :
    joined f (n + 1) = joined f n ++ (f n).toList := by
  rw [joined, List.range_succ, List.flatMap_append, List.flatMap_singleton, joined]

theorem joined_length (f : Nat → Block) (n : Nat) : (joined f n).length = 16 * n := by
  induction n with
  | zero => rfl
  | succ n ih =>
    rw [joined_succ, List.length_append, ih, Vector.length_toList]
    omega

theorem joined_congr {f g : Nat → Block} {n : Nat} (same : ∀ i < n, f i = g i) :
    joined f n = joined g n := by
  rw [joined, joined, List.flatMap_congr fun i inside => by rw [same i (List.mem_range.mp inside)]]

theorem blockAt_left {a b : Bytes} {i : Nat} (inside : i + 16 ≤ a.length) :
    blockAt (a ++ b) i = blockAt a i := by
  refine Vector.ext fun k below => ?_
  have short : i + k < a.length := by omega
  rw [blockAt, blockAt, Vector.getElem_ofFn, Vector.getElem_ofFn, List.getD_append _ _ _ _ short]

theorem blockAt_end (a : Bytes) (f : Block) : blockAt (a ++ f.toList) a.length = f := by
  refine Vector.ext fun k below => ?_
  rw [blockAt, Vector.getElem_ofFn, List.getD_append_right _ _ _ _ (Nat.le_add_right _ _),
    Nat.add_sub_cancel_left]
  simp [below]

theorem blockAt_joined {f : Nat → Block} {n i : Nat} (inside : i < n) :
    blockAt (joined f n) (16 * i) = f i := by
  induction n with
  | zero => omega
  | succ n ih =>
    rw [joined_succ]
    rcases Nat.lt_succ_iff_lt_or_eq.mp inside with earlier | rfl
    · rw [blockAt_left (by rw [joined_length]; omega), ih earlier]
    · have last := blockAt_end (joined f i) (f i)
      rwa [joined_length] at last

theorem toList_blockAt {a : Bytes} {i : Nat} (inside : i + 16 ≤ a.length) :
    (blockAt a i).toList = (a.drop i).take 16 := by
  refine List.ext_getElem (by simp; omega) fun k left right => ?_
  have below : k < 16 := by simpa using left
  have here : i + k < a.length := by omega
  simp [blockAt, here]

theorem joined_blockAt {a : Bytes} {n : Nat} (inside : 16 * n ≤ a.length) :
    joined (fun i => blockAt a (16 * i)) n = a.take (16 * n) := by
  induction n with
  | zero => rfl
  | succ n ih =>
    rw [joined_succ, ih (by omega), toList_blockAt (by omega), ← List.take_add]
    congr 1

theorem foldlM_range_succ {α : Type} (step : α → Nat → Option α) (start : α) (n : Nat) :
    (List.range (n + 1)).foldlM step start =
      ((List.range n).foldlM step start).bind fun done => step done n := by
  rw [List.range_succ, List.foldlM_append]
  simp only [Option.bind_eq_bind, List.foldlM_cons, List.foldlM_nil, Option.pure_def,
    Option.bind_fun_some]

theorem foldlM_extends {α : Type} {step : Bytes → α → Option Bytes}
    (grows : ∀ done x done', step done x = some done' → done <+: done') :
    ∀ (list : List α) {done done' : Bytes}, list.foldlM step done = some done' → done <+: done'
  | [], done, done', whole => by
    obtain rfl := Option.some.inj whole
    exact List.prefix_rfl
  | x :: list, done, done', whole => by
    rw [List.foldlM_cons] at whole
    obtain ⟨next, first, rest⟩ := Option.bind_eq_some_iff.mp whole
    exact (grows _ _ _ first).trans (foldlM_extends grows list rest)

variable {w : Schedule} {stack : Nat → Bytes}

theorem invTurn_blocks {written : Bytes} {n : Nat} (inside : 16 * n ≤ written.length) :
    (List.range n).foldlM (invTurn w written) [] =
      some (joined (fun i => invCipher w (blockAt written (16 * i))) n) := by
  induction n with
  | zero => rfl
  | succ n ih =>
    rw [foldlM_range_succ, ih (by omega), Option.bind_some, invTurn, if_pos (by omega),
      joined_succ]

/-- Whole blocks, or one byte less: the terminator behind the bytes serves as the last one. -/
theorem bm53InvCipher_hexOf {c : Nat → Block} {bytes rest : Bytes} {n : Nat}
    (whole : bytes ++ [0] = joined c n ++ rest) (short : rest.length ≤ 1) :
    bm53InvCipher w (hexOf bytes) =
      stripped 16 (cStr (joined (fun i => invCipher w (c i)) n)) := by
  have size := congrArg List.length whole
  rw [List.length_append, List.length_append, joined_length, List.length_singleton] at size
  have turns : ((hexOf bytes).length / 2 + 15) / 16 = n := by
    rw [hexOf_length]
    omega
  have same : joined (fun i => invCipher w (blockAt (joined c n ++ rest) (16 * i))) n =
      joined (fun i => invCipher w (c i)) n := joined_congr fun i inside => by
    rw [blockAt_left (by rw [joined_length]; omega), blockAt_joined inside]
  rw [bm53InvCipher, turns, hexToUChar_hexOf, whole,
    invTurn_blocks (by rw [List.length_append, joined_length]; omega), Option.bind_some, same]

/-- A last block of 1 to 14 bytes is read behind what was written. -/
theorem bm53InvCipher_cut {bytes : Bytes} (lower : 1 ≤ bytes.length % 16)
    (upper : bytes.length % 16 ≤ 14) : bm53InvCipher w (hexOf bytes) = none := by
  have turns : ((hexOf bytes).length / 2 + 15) / 16 = bytes.length / 16 + 1 := by
    rw [hexOf_length]
    omega
  have behind : ¬ 16 * (bytes.length / 16) + 16 ≤ (bytes ++ [0]).length := by
    rw [List.length_append, List.length_singleton]
    omega
  rw [bm53InvCipher, turns, hexToUChar_hexOf, foldlM_range_succ]
  cases (List.range (bytes.length / 16)).foldlM (invTurn w (bytes ++ [0])) [] with
  | none => rfl
  | some done => rw [Option.bind_some, invTurn, if_neg behind, Option.bind_none]

theorem stripped_front : ∀ (n : Nat) {text left : Bytes}, stripped n text = some left →
    left <+: text
  | 0, text, left, done => by
    obtain rfl := Option.some.inj done
    exact List.prefix_rfl
  | n + 1, text, left, done => by
    rw [stripped] at done
    split at done
    · cases done
    · split at done
      · exact (stripped_front n done).trans (List.dropLast_prefix text)
      · obtain rfl := Option.some.inj done
        exact List.prefix_rfl

/-- Of the last 16 bytes the small ones at the end go. -/
theorem stripped_append (text last : Bytes) :
    stripped last.length (text ++ last) = some (text ++ last.rdropWhile small) := by
  induction last using List.reverseRecOn with
  | nil => rw [List.rdropWhile_nil]; rfl
  | append_singleton last b ih =>
    rw [List.length_append, List.length_singleton, ← List.append_assoc, stripped,
      List.getLast?_concat, List.dropLast_concat]
    by_cases tiny : small b
    · rw [List.rdropWhile_concat_pos _ _ _ tiny, ← ih]
      simp [tiny]
    · rw [List.rdropWhile_concat_neg _ _ _ tiny, ← List.append_assoc]
      simp [tiny]

/-- What is deciphered goes on with what the first whole blocks of the digits say. -/
theorem bm53InvCipher_prefix {c : Nat → Block} {n : Nat} {digits text : Bytes} (present : 1 ≤ n)
    (done : bm53InvCipher w (hexOf (joined c n) ++ digits) = some text) :
    ∃ whole, text <+: whole ∧
      joined (fun i => invCipher w (c i)) n <+: whole := by
  rw [bm53InvCipher] at done
  obtain ⟨uchOutput, blocks, strip⟩ := Option.bind_eq_some_iff.mp done
  refine ⟨uchOutput, (stripped_front _ strip).trans ?_, ?_⟩
  · exact List.takeWhile_prefix _
  have size : 2 * (16 * n) ≤ (hexOf (joined c n) ++ digits).length := by
    rw [List.length_append, hexOf_length, joined_length]
    omega
  obtain ⟨more, turns⟩ := Nat.exists_eq_add_of_le
    (show n ≤ ((hexOf (joined c n) ++ digits).length / 2 + 15) / 16 by omega)
  rw [turns, List.range_add, List.foldlM_append] at blocks
  obtain ⟨front, first, rest⟩ := Option.bind_eq_some_iff.mp blocks
  have steps : ∀ done i done', invTurn w (hexToUChar (hexOf (joined c n) ++ digits)) done i =
      some done' → done <+: done' := by
    intro done i done' step
    rw [invTurn] at step
    split at step
    · obtain rfl := Option.some.inj step
      exact List.prefix_append _ _
    · cases step
  refine List.IsPrefix.trans ?_ (foldlM_extends steps _ rest)
  rw [hexToUChar] at first
  split at first
  · -- nothing was written, so the first block is read behind it
    obtain ⟨k, rfl⟩ := Nat.exists_eq_add_of_le' present
    rw [List.range_succ_eq_map, List.foldlM_cons, invTurn] at first
    cases first
  · rw [hexPairs_hexOf, invTurn_blocks (by rw [List.length_append, joined_length]; omega)] at first
    obtain rfl := Option.some.inj first
    rw [joined_congr fun i inside => ?_]
    rw [blockAt_left (by rw [joined_length]; omega), blockAt_joined inside]

variable {text : Bytes} {done done' : Option Bytes × Bytes} {n : Nat}

def coded (w : Schedule) (text : Bytes) (n : Nat) : Block := cipher w (blockAt text (16 * n))

/-- A block without a zero byte gives its 32 digits. -/
theorem cipherTurn_whole (clean : 0 ∉ (coded w text n).toList) :
    cipherTurn w stack text done n =
      some (some (hexOf ((coded w text n).toList ++ cStr (stack n))),
        done.2 ++ hexOf (coded w text n).toList) := by
  have whole : cStr ((coded w text n).toList ++ cStr (stack n)) =
      (coded w text n).toList ++ cStr (stack n) := by
    rw [cStr_append clean, cStr_eq_self (cStr_clean _)]
  have long : (coded w text n).toList.length = 16 := Vector.length_toList
  have some' : (coded w text n).toList ++ cStr (stack n) ≠ [] := fun none => by
    have := congrArg List.length none
    rw [List.length_append, long] at this
    simp at this
  rw [cipherTurn, cipherText, ← coded, ucharToHex, whole, if_neg some', Option.map_some,
    strncpy_long long]

/-- A zero byte behind the first one ends the digits. -/
theorem cipherTurn_cut (stack : Nat → Bytes) (done : Option Bytes × Bytes)
    (some' : cStr (coded w text n).toList ≠ [])
    (short : (cStr (coded w text n).toList).length < 16) :
    ∃ t, cipherTurn w stack text done n =
      some (some (hexOf (cStr (coded w text n).toList)),
        done.2 ++ (hexOf (cStr (coded w text n).toList) ++ 0 :: t)) := by
  obtain ⟨rest, split⟩ := cStr_split (s := (coded w text n).toList)
    (by rwa [Vector.length_toList])
  have cut : cStr ((coded w text n).toList ++ cStr (stack n)) = cStr (coded w text n).toList := by
    rw [split, List.append_assoc, List.cons_append, cStr_terminated (cStr_clean _), ← split]
  obtain ⟨t, filled⟩ := strncpy_short short
  refine ⟨t, ?_⟩
  rw [cipherTurn, cipherText, ← coded, ucharToHex, cut, if_neg some', Option.map_some, filled]

/-- With a zero byte in front the digits of the block before are taken again. -/
theorem cipherTurn_empty (none' : cStr (coded w text n).toList = []) :
    cipherTurn w stack text done n =
      done.1.map fun eBlock => (some eBlock, done.2 ++ strncpy 32 eBlock) := by
  obtain ⟨rest, split⟩ := cStr_split (s := (coded w text n).toList)
    (by rw [none', Vector.length_toList, List.length_nil]; omega)
  have cut : cStr ((coded w text n).toList ++ cStr (stack n)) = [] := by
    rw [split, none', List.nil_append, List.cons_append]
    rfl
  rw [cipherTurn, cipherText, ← coded, ucharToHex, cut, if_pos rfl]

theorem cipherTurn_total (w : Schedule) (stack : Nat → Bytes) (text eBlock out : Bytes) (n : Nat) :
    ∃ next t, cipherTurn w stack text (some eBlock, out) n = some (some next, out ++ t) := by
  have total : ∃ next,
      cipherText w (blockAt text (16 * n)) (stack n) (some eBlock) = some next := by
    rw [cipherText, ucharToHex]
    split
    · exact ⟨_, rfl⟩
    · exact ⟨_, rfl⟩
  obtain ⟨next, total⟩ := total
  exact ⟨next, _, by rw [cipherTurn, total, Option.map_some]⟩

theorem cipherTurns_total (w : Schedule) (stack : Nat → Bytes) (text : Bytes) :
    ∀ (list : List Nat) (eBlock out : Bytes),
    ∃ next t, list.foldlM (cipherTurn w stack text) (some eBlock, out) = some (next, out ++ t)
  | [], eBlock, out => ⟨some eBlock, [], by rw [List.append_nil]; rfl⟩
  | n :: list, eBlock, out => by
    obtain ⟨next, t, turn⟩ := cipherTurn_total w stack text eBlock out n
    obtain ⟨last, more, rest⟩ := cipherTurns_total w stack text list next (out ++ t)
    refine ⟨last, t ++ more, ?_⟩
    rw [List.foldlM_cons, turn, ← List.append_assoc]
    exact rest

/-- No ciphered block before the `n`-th holds a zero byte. -/
def Clean (w : Schedule) (text : Bytes) (n : Nat) : Prop :=
  ∀ i < n, 0 ∉ (coded w text i).toList

theorem cipherTurns_clean (stack : Nat → Bytes) (clean : Clean w text n) :
    ∃ eBlock, (List.range n).foldlM (cipherTurn w stack text) (none, []) =
      some (eBlock, hexOf (joined (coded w text) n)) ∧
      (n = 0 → eBlock = none) ∧
      ∀ k, n = k + 1 → ∃ digits, eBlock = some digits ∧
        strncpy 32 digits = hexOf (coded w text k).toList := by
  induction n with
  | zero => exact ⟨none, rfl, fun _ => rfl, fun k same => absurd same (Nat.succ_ne_zero k).symm⟩
  | succ n ih =>
    obtain ⟨eBlock, turns, -, -⟩ := ih fun i before => clean i (by omega)
    refine ⟨some (hexOf ((coded w text n).toList ++ cStr (stack n))), ?_,
      fun zero => absurd zero (Nat.succ_ne_zero n), ?_⟩
    · rw [foldlM_range_succ, turns, Option.bind_some,
        cipherTurn_whole (clean n (Nat.lt_succ_self n)), joined_succ,
        hexOf_append (joined _ _)]
    · intro k same
      obtain rfl := Nat.succ.inj same
      exact ⟨_, rfl, strncpy_long Vector.length_toList _⟩

variable {input : Bytes} {m : Nat}

theorem newAlock_length (input : Bytes) :
    (newAlock input).length = 16 * (input.length / 16 + 1) := by
  rw [newAlock, List.length_append, List.length_replicate]
  omega

theorem newAlock_clean (clean : 0 ∉ input) : 0 ∉ newAlock input := by
  intro inside
  rcases List.mem_append.mp inside with there | filling
  · exact clean there
  · have zero := congrArg UInt8.toNat (List.eq_of_mem_replicate filling)
    simp at zero
    omega

theorem newAlock_take (below : 16 * m ≤ input.length) :
    (newAlock input).take (16 * m) = input.take (16 * m) := by
  rw [newAlock, List.take_append_of_le_length below]

theorem range_split {m n : Nat} (inside : m < n) :
    ∃ rest, List.range n = List.range m ++ m :: rest := by
  obtain ⟨k, rfl⟩ := Nat.exists_eq_add_of_lt inside
  refine ⟨(List.range k).map fun i => m + (i + 1), ?_⟩
  rw [Nat.add_assoc, List.range_add, List.range_succ_eq_map]
  simp

theorem bm53Cipher_clean (clean : Clean w (newAlock input) (input.length / 16 + 1)) :
    bm53Cipher w stack input =
      some (hexOf (joined (coded w (newAlock input)) (input.length / 16 + 1))) := by
  have turns : (newAlock input).length / 16 = input.length / 16 + 1 := by
    rw [newAlock_length]
    omega
  obtain ⟨eBlock, run, -⟩ := cipherTurns_clean stack clean
  rw [bm53Cipher, turns, run, Option.map_some, cStr_eq_self (hexOf_clean _)]

theorem bm53Cipher_cut (inside : m ≤ input.length / 16) (clean : Clean w (newAlock input) m)
    (some' : cStr (coded w (newAlock input) m).toList ≠ [])
    (short : (cStr (coded w (newAlock input) m).toList).length < 16) :
    bm53Cipher w stack input =
      some (hexOf (joined (coded w (newAlock input)) m ++
        cStr (coded w (newAlock input) m).toList)) := by
  have turns : (newAlock input).length / 16 = input.length / 16 + 1 := by
    rw [newAlock_length]
    omega
  obtain ⟨eBlock, run, -⟩ := cipherTurns_clean stack clean
  obtain ⟨rest, split⟩ := range_split (Nat.lt_succ_of_le inside)
  obtain ⟨t, turn⟩ := cipherTurn_cut stack
    (eBlock, hexOf (joined (coded w (newAlock input)) m)) some' short
  obtain ⟨next, more, last⟩ := cipherTurns_total w stack (newAlock input) rest
    (hexOf (cStr (coded w (newAlock input) m).toList))
    (hexOf (joined (coded w (newAlock input)) m) ++
      (hexOf (cStr (coded w (newAlock input) m).toList) ++ 0 :: t))
  rw [bm53Cipher, turns, split, List.foldlM_append, run]
  simp only [Option.bind_eq_bind, Option.bind_some, List.foldlM_cons, turn, last, Option.map_some]
  rw [List.append_assoc, List.append_assoc, List.cons_append, ← List.append_assoc, ← hexOf_append,
    cStr_terminated (hexOf_clean _)]

theorem bm53Cipher_repeat (stack : Nat → Bytes) (inside : m < input.length / 16)
    (clean : Clean w (newAlock input) (m + 1))
    (none' : cStr (coded w (newAlock input) (m + 1)).toList = []) :
    ∃ t, bm53Cipher w stack input =
      some (hexOf (joined (coded w (newAlock input)) (m + 1) ++
        (coded w (newAlock input) m).toList) ++ t) ∧ (m + 1 = input.length / 16 → t = []) := by
  have turns : (newAlock input).length / 16 = input.length / 16 + 1 := by
    rw [newAlock_length]
    omega
  obtain ⟨eBlock, run, -, again⟩ := cipherTurns_clean stack clean
  obtain ⟨digits, rfl, same⟩ := again m rfl
  have turn : cipherTurn w stack (newAlock input)
      (some digits, hexOf (joined (coded w (newAlock input)) (m + 1))) (m + 1) =
      some (some digits, hexOf (joined (coded w (newAlock input)) (m + 1) ++
        (coded w (newAlock input) m).toList)) := by
    rw [cipherTurn_empty none', Option.map_some, same, hexOf_append (joined _ _)]
  by_cases last : m + 1 = input.length / 16
  · refine ⟨[], ?_, fun _ => rfl⟩
    rw [bm53Cipher, turns, ← last, foldlM_range_succ, run, Option.bind_some, turn, Option.map_some,
      cStr_eq_self (hexOf_clean _), List.append_nil]
  · obtain ⟨rest, split⟩ := range_split
      (show m + 1 < input.length / 16 + 1 by omega)
    obtain ⟨next, more, done⟩ := cipherTurns_total w stack (newAlock input) rest digits
      (hexOf (joined (coded w (newAlock input)) (m + 1) ++ (coded w (newAlock input) m).toList))
    refine ⟨cStr more, ?_, fun same => absurd same last⟩
    rw [bm53Cipher, turns, split, List.foldlM_append, run]
    simp only [Option.bind_eq_bind, Option.bind_some, List.foldlM_cons, turn, done,
      Option.map_some]
    rw [cStr_append (hexOf_clean _)]

/-- A zero byte in front of the first block leaves nothing to copy. -/
theorem bm53Cipher_none (none' : cStr (coded w (newAlock input) 0).toList = []) :
    bm53Cipher w stack input = none := by
  obtain ⟨rest, split⟩ := range_split (Nat.succ_pos (input.length / 16))
  have turns : (newAlock input).length / 16 = input.length / 16 + 1 := by
    rw [newAlock_length]
    omega
  rw [bm53Cipher, turns, split, List.range_zero, List.nil_append, List.foldlM_cons,
    cipherTurn_empty none']
  rfl

/-- What Bm53InvCipher makes of the output of Bm53Cipher. -/
def thereAndBack (w : Schedule) (stack : Nat → Bytes) (input : Bytes) : Option Bytes :=
  (bm53Cipher w stack input).bind (bm53InvCipher w)

theorem joined_inv (w : Schedule) (below : m ≤ input.length / 16 + 1) :
    joined (fun i => invCipher w (coded w (newAlock input) i)) m =
      (newAlock input).take (16 * m) := by
  have blocks : (fun i => invCipher w (coded w (newAlock input) i)) =
      fun i => blockAt (newAlock input) (16 * i) := funext fun i => cipher_leftInverse w _
  rw [blocks, joined_blockAt (by rw [newAlock_length]; omega)]

theorem rdropWhile_replicate (tail : Bytes) {b : UInt8} (tiny : small b) (size : Nat) :
    (tail ++ List.replicate size b).rdropWhile small = tail.rdropWhile small := by
  induction size with
  | zero => rw [List.replicate_zero, List.append_nil]
  | succ size ih =>
    rw [List.replicate_succ', ← List.append_assoc, List.rdropWhile_concat_pos _ _ _ tiny, ih]

theorem filling_small (length : Nat) : small (UInt8.ofNat (16 - length % 16)) := by
  have sizes : ∀ r < 16, small (UInt8.ofNat (16 - r)) := by decide
  exact sizes (length % 16) (Nat.mod_lt _ (by omega))

theorem stripped_block {a b : Bytes} (long : b.length = 16) :
    stripped 16 (a ++ b) = some (a ++ b.rdropWhile small) := long ▸ stripped_append a b

/-- A last byte that is zero comes back as the terminator. -/
theorem cStr_last {c : Bytes} (size : c.length = 16) (last : (cStr c).length = 15) :
    cStr c ++ [0] = c := by
  obtain ⟨t, split⟩ := cStr_split (show (cStr c).length < c.length by omega)
  have lengths := congrArg List.length split
  rw [List.length_append, List.length_cons] at lengths
  have ends : t = [] := List.length_eq_zero_iff.mp (by omega)
  rw [ends] at split
  exact split.symm

theorem clean_of_long {c : Bytes} (size : c.length = 16) (long : 16 ≤ (cStr c).length) :
    0 ∉ c := by
  have whole : cStr c = c := (List.takeWhile_prefix _).eq_of_length (by
    have := cStr_length c
    change (cStr c).length = _
    omega)
  exact whole ▸ cStr_clean c

/-- All blocks come through: the filling goes, and small bytes before it. -/
theorem back_whole (clean : 0 ∉ input) (before : Clean w (newAlock input) (input.length / 16))
    (late : 15 ≤ (cStr (coded w (newAlock input) (input.length / 16)).toList).length) :
    thereAndBack w stack input = some (input.take (16 * (input.length / 16)) ++
      (input.drop (16 * (input.length / 16))).rdropWhile small) := by
  have size : (coded w (newAlock input) (input.length / 16)).toList.length = 16 :=
    Vector.length_toList
  have digits : ∃ bytes rest, bm53Cipher w stack input = some (hexOf bytes) ∧
      bytes ++ [0] = joined (coded w (newAlock input)) (input.length / 16 + 1) ++ rest ∧
      rest.length ≤ 1 := by
    by_cases short : (cStr (coded w (newAlock input) (input.length / 16)).toList).length < 16
    · have some' : cStr (coded w (newAlock input) (input.length / 16)).toList ≠ [] := fun none => by
        rw [none] at late
        simp at late
      refine ⟨_, [], bm53Cipher_cut le_rfl before some' short, ?_, Nat.zero_le 1⟩
      rw [joined_succ, List.append_assoc, List.append_nil, cStr_last size (by omega)]
    · have whole : Clean w (newAlock input) (input.length / 16 + 1) := by
        intro i inside
        rcases Nat.lt_succ_iff_lt_or_eq.mp inside with earlier | rfl
        · exact before i earlier
        · exact clean_of_long size (by omega)
      exact ⟨_, [0], bm53Cipher_clean whole, rfl, le_rfl⟩
  obtain ⟨bytes, rest, sent, whole, short⟩ := digits
  have all : (newAlock input).take (16 * (input.length / 16 + 1)) =
      input.take (16 * (input.length / 16)) ++ (input.drop (16 * (input.length / 16)) ++
        List.replicate (16 - input.length % 16) (UInt8.ofNat (16 - input.length % 16))) := by
    rw [List.take_of_length_le (newAlock_length input).le, newAlock, ← List.append_assoc,
      List.take_append_drop]
  rw [thereAndBack, sent, Option.bind_some, bm53InvCipher_hexOf whole short,
    joined_inv w le_rfl, all, cStr_eq_self, stripped_block,
    rdropWhile_replicate _ (filling_small _)]
  · rw [List.length_append, List.length_drop, List.length_replicate]
    omega
  · rw [← all]
    exact fun inside => newAlock_clean clean (List.mem_of_mem_take inside)

theorem take_succ_block (input : Bytes) (m : Nat) :
    input.take (16 * (m + 1)) = input.take (16 * m) ++ (input.drop (16 * m)).take 16 := by
  rw [Nat.mul_succ, List.take_add]

/-- The digits end in the last byte of an earlier block: the blocks up to it come through. -/
theorem back_part (clean : 0 ∉ input) (inside : m < input.length / 16)
    (before : Clean w (newAlock input) m)
    (last : (cStr (coded w (newAlock input) m).toList).length = 15) :
    thereAndBack w stack input = some (input.take (16 * m) ++
      ((input.drop (16 * m)).take 16).rdropWhile small) := by
  have size : (coded w (newAlock input) m).toList.length = 16 := Vector.length_toList
  have some' : cStr (coded w (newAlock input) m).toList ≠ [] := fun none => by
    rw [none] at last
    simp at last
  have whole : joined (coded w (newAlock input)) m ++ cStr (coded w (newAlock input) m).toList ++
      [0] = joined (coded w (newAlock input)) (m + 1) ++ [] := by
    rw [joined_succ, List.append_assoc, List.append_nil, cStr_last size last]
  rw [thereAndBack, bm53Cipher_cut (by omega) before some' (by omega), Option.bind_some,
    bm53InvCipher_hexOf whole (Nat.zero_le 1), joined_inv w (by omega),
    newAlock_take (by omega), cStr_eq_self (fun zero => clean (List.mem_of_mem_take zero)),
    take_succ_block, stripped_block]
  rw [List.length_take, List.length_drop]
  omega

/-- The ciphered blocks with one of them twice. -/
def repeated (w : Schedule) (text : Bytes) (m : Nat) : Nat → Block :=
  Function.update (coded w text) (m + 1) (coded w text m)

theorem joined_repeated (w : Schedule) (text : Bytes) (m : Nat) :
    joined (repeated w text m) (m + 2) =
      joined (coded w text) (m + 1) ++ (coded w text m).toList := by
  have others : joined (repeated w text m) (m + 1) = joined (coded w text) (m + 1) :=
    joined_congr fun i inside => Function.update_of_ne (by omega) _ _
  rw [joined_succ, others, repeated, Function.update_self]

theorem joined_inv_repeated (w : Schedule) (below : m < input.length / 16) :
    joined (fun i => invCipher w (repeated w (newAlock input) m i)) (m + 2) =
      input.take (16 * (m + 1)) ++ (blockAt (newAlock input) (16 * m)).toList := by
  have others : joined (fun i => invCipher w (repeated w (newAlock input) m i)) (m + 1) =
      joined (fun i => invCipher w (coded w (newAlock input) i)) (m + 1) :=
    joined_congr fun i inside => by rw [repeated, Function.update_of_ne (by omega)]
  rw [joined_succ, others, joined_inv w (by omega), newAlock_take (by omega), repeated,
    Function.update_self, coded, cipher_leftInverse w _]

theorem newAlock_block (below : m < input.length / 16) :
    (blockAt (newAlock input) (16 * m)).toList = (input.drop (16 * m)).take 16 := by
  rw [toList_blockAt (by rw [newAlock_length]; omega), newAlock,
    List.drop_append_of_le_length (by omega), List.take_append_of_le_length]
  rw [List.length_drop]
  omega

/-- The last block is sent as the one before it. -/
theorem back_repeat (clean : 0 ∉ input) (inside : m + 1 = input.length / 16)
    (before : Clean w (newAlock input) (m + 1))
    (none' : cStr (coded w (newAlock input) (m + 1)).toList = []) :
    thereAndBack w stack input = some (input.take (16 * (m + 1)) ++
      ((input.drop (16 * m)).take 16).rdropWhile small) := by
  obtain ⟨t, sent, ends⟩ := bm53Cipher_repeat stack (by omega) before none'
  rw [ends inside, List.append_nil, ← joined_repeated] at sent
  rw [thereAndBack, sent, Option.bind_some, bm53InvCipher_hexOf rfl le_rfl,
    joined_inv_repeated w (by omega), newAlock_block (by omega), cStr_eq_self, stripped_block]
  · rw [List.length_take, List.length_drop]
    omega
  · intro zero
    rcases List.mem_append.mp zero with first | last
    · exact clean (List.mem_of_mem_take first)
    · exact clean (List.mem_of_mem_drop (List.mem_of_mem_take last))

/-- An earlier block that is sent as the one before it does not come back. -/
theorem back_earlier (inside : m + 1 < input.length / 16)
    (before : Clean w (newAlock input) (m + 1))
    (none' : cStr (coded w (newAlock input) (m + 1)).toList = []) :
    thereAndBack w stack input ≠ some input := by
  intro back
  obtain ⟨t, sent, -⟩ := bm53Cipher_repeat stack (by omega) before none'
  rw [← joined_repeated] at sent
  rw [thereAndBack, sent, Option.bind_some] at back
  obtain ⟨whole, front, deciphered⟩ := bm53InvCipher_prefix (by omega) back
  rw [joined_inv_repeated w (by omega)] at deciphered
  have taken : input.take (16 * (m + 2)) =
      input.take (16 * (m + 1)) ++ (blockAt (newAlock input) (16 * m)).toList := by
    refine List.prefix_of_prefix_length_le ((List.take_prefix _ _).trans front) deciphered ?_
      |>.eq_of_length ?_
    · simp
      omega
    · simp
      omega
  rw [take_succ_block, ← newAlock_block (by omega)] at taken
  have same := Vector.toList_inj.mp (List.append_cancel_left taken)
  have apart := before m (Nat.lt_succ_self m)
  have ciphered : coded w (newAlock input) (m + 1) = coded w (newAlock input) m := by
    rw [coded, same, coded]
  rw [ciphered, cStr_eq_self apart] at none'
  have size := congrArg List.length none'
  simp at size

/-- A block that ends inside leaves bytes that nobody wrote. -/
theorem back_cut (inside : m ≤ input.length / 16) (before : Clean w (newAlock input) m)
    (some' : cStr (coded w (newAlock input) m).toList ≠ [])
    (short : (cStr (coded w (newAlock input) m).toList).length < 15) :
    thereAndBack w stack input = none := by
  have positive := List.length_pos_iff.mpr some'
  rw [thereAndBack, bm53Cipher_cut inside before some' (by omega), Option.bind_some,
    bm53InvCipher_cut]
  · rw [List.length_append, joined_length]
    omega
  · rw [List.length_append, joined_length]
    omega

/-- The place of the first zero byte in a ciphered block, 16 without one. -/
def firstZero (w : Schedule) (text : Bytes) (n : Nat) : Nat := (cStr (coded w text n).toList).length

/-- The ways through: no zero byte before the last one of the text, and its unfinished block ends
with no small byte. Or the text has whole blocks only, the first zero byte is the last of the
block before the filling, and the text ends with no small byte. Or only the last block starts
with a zero byte, and the block before it without the small bytes at its end is the rest of the
text. -/
def Survives (w : Schedule) (input : Bytes) : Prop :=
  (Clean w (newAlock input) (input.length / 16) ∧
    15 ≤ firstZero w (newAlock input) (input.length / 16) ∧
    (input.drop (16 * (input.length / 16))).rdropWhile small =
      input.drop (16 * (input.length / 16))) ∨
  ∃ m, m + 1 = input.length / 16 ∧
    ((Clean w (newAlock input) m ∧ firstZero w (newAlock input) m = 15 ∧
        input.length = 16 * (m + 1) ∧
        (input.drop (16 * m)).rdropWhile small = input.drop (16 * m)) ∨
      (Clean w (newAlock input) (m + 1) ∧ firstZero w (newAlock input) (m + 1) = 0 ∧
        ((input.drop (16 * m)).take 16).rdropWhile small = input.drop (16 * (m + 1))))

theorem first_zero (w : Schedule) (text : Bytes) (n : Nat) :
    Clean w text n ∨ ∃ m < n, Clean w text m ∧ firstZero w text m < 16 := by
  induction n with
  | zero => exact .inl fun i inside => absurd inside (Nat.not_lt_zero i)
  | succ n ih =>
    rcases ih with clean | ⟨m, inside, first⟩
    · by_cases short : firstZero w text n < 16
      · exact .inr ⟨n, Nat.lt_succ_self n, clean, short⟩
      · refine .inl fun i inside => ?_
        rcases Nat.lt_succ_iff_lt_or_eq.mp inside with earlier | rfl
        · exact clean i earlier
        · exact clean_of_long Vector.length_toList (Nat.not_lt.mp short)
    · exact .inr ⟨m, by omega, first⟩

theorem back_of_survives (clean : 0 ∉ input) (ways : Survives w input) :
    thereAndBack w stack input = some input := by
  rcases ways with ⟨before, late, ends⟩ | ⟨m, inside, ⟨before, last, whole, ends⟩ |
    ⟨before, none', same⟩⟩
  · rw [back_whole clean before late, ends, List.take_append_drop]
  · have block : (input.drop (16 * m)).take 16 = input.drop (16 * m) :=
      List.take_of_length_le (by rw [List.length_drop]; omega)
    rw [back_part clean (by omega) before last, block, ends, List.take_append_drop]
  · rw [back_repeat clean inside before (List.length_eq_zero_iff.mp none'), same,
      List.take_append_drop]

theorem survives_of_back (clean : 0 ∉ input) (back : thereAndBack w stack input = some input) :
    Survives w input := by
  have tail : ∀ {k : Nat} {rest : Bytes}, some (input.take k ++ rest) = some input →
      rest = input.drop k := fun same =>
    List.append_cancel_left ((Option.some.inj same).trans (List.take_append_drop _ _).symm)
  rcases first_zero w (newAlock input) (input.length / 16 + 1) with
    whole | ⟨m, inside, before, short⟩
  · have last : 15 ≤ firstZero w (newAlock input) (input.length / 16) := by
      rw [firstZero, cStr_eq_self (whole _ (Nat.lt_succ_self _)), Vector.length_toList]
      omega
    have before : Clean w (newAlock input) (input.length / 16) := fun i inside =>
      whole i (by omega)
    rw [back_whole clean before last] at back
    exact .inl ⟨before, last, tail back⟩
  · rcases (show firstZero w (newAlock input) m = 15 ∨ firstZero w (newAlock input) m = 0 ∨
      (firstZero w (newAlock input) m ≠ 0 ∧ firstZero w (newAlock input) m < 15) by omega) with
      last | none' | ⟨some', cut⟩
    · rcases Nat.lt_succ_iff_lt_or_eq.mp inside with earlier | rfl
      · -- the blocks up to this one are at most the whole text
        rw [back_part clean earlier before last] at back
        have ends := tail back
        have size := congrArg List.length ends
        have kept := (List.rdropWhile_prefix small ((input.drop (16 * m)).take 16)).length_le
        rw [List.length_drop] at size
        rw [List.length_take] at kept
        have block : (input.drop (16 * m)).take 16 = input.drop (16 * m) :=
          List.take_of_length_le (by rw [List.length_drop]; omega)
        rw [block] at ends
        exact .inr ⟨m, by omega, .inl ⟨before, last, by omega, ends⟩⟩
      · rw [back_whole clean before last.ge] at back
        exact .inl ⟨before, last.ge, tail back⟩
    · have empty := List.length_eq_zero_iff.mp none'
      cases m with
      | zero =>
        rw [thereAndBack, bm53Cipher_none empty] at back
        cases back
      | succ m =>
        by_cases last : m + 1 = input.length / 16
        · rw [back_repeat clean last before empty] at back
          exact .inr ⟨m, last, .inr ⟨before, none', tail back⟩⟩
        · exact absurd back (back_earlier (by omega) before empty)
    · rw [back_cut (by omega) before (fun none => some' (by rw [firstZero, none]; rfl)) cut] at back
      cases back

/-- **Which texts come back.** -/
theorem thereAndBack_iff (key : Block) (stack : Nat → Bytes) (input : Bytes) (clean : 0 ∉ input) :
    thereAndBack (keyExpansion key) stack input = some input ↔
      Survives (keyExpansion key) input :=
  ⟨survives_of_back clean, back_of_survives clean⟩

/-- The key of the exchange. -/
def cKey : Block := blockAt (ascii "aitoudsp-20160311") 0

theorem price_back_iff : thereAndBack (keyExpansion cKey) (fun _ => []) (ascii "2.000000") =
      some (ascii "2.000000") ↔ Survives (keyExpansion cKey) (ascii "2.000000") :=
  thereAndBack_iff cKey (fun _ => []) (ascii "2.000000") (by decide)

theorem price_coded : (coded (keyExpansion cKey) (newAlock (ascii "2.000000")) 0).toList =
    [113, 69, 188, 131, 185, 174, 81, 0, 137, 138, 247, 78, 173, 112, 175, 160] := by
  decide +kernel

/-- The eighth byte of the ciphered price is zero. -/
theorem price_lost : thereAndBack (keyExpansion cKey) (fun _ => []) (ascii "2.000000") ≠
    some (ascii "2.000000") := by
  have first : cStr (coded (keyExpansion cKey) (newAlock (ascii "2.000000")) 0).toList =
      [113, 69, 188, 131, 185, 174, 81] := by
    rw [price_coded]
    decide
  rw [back_cut (Nat.zero_le _) (fun i inside => absurd inside (Nat.not_lt_zero i))]
  · exact (Option.some_ne_none _).symm
  · rw [first]
    exact List.cons_ne_nil _ _
  · rw [first]
    decide

end AesText
