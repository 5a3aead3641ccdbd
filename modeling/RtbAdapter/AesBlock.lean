import Mathlib.Tactic.Common
import RtbAdapter.ByteWords

/-!
# The block cipher

The rounds of AES on a block of 16 bytes, as tables and loops over a square of bytes. Each step
of a round has its inverse, and the decryption meets them in the opposite order, so that it
gives back every block under every key schedule.
-/

namespace AesBlock

open ByteWords

def sBoxTable : Bytes := [
  0x63, 0x7c, 0x77, 0x7b, 0xf2, 0x6b, 0x6f, 0xc5, 0x30, 0x01, 0x67, 0x2b, 0xfe, 0xd7, 0xab, 0x76,
  0xca, 0x82, 0xc9, 0x7d, 0xfa, 0x59, 0x47, 0xf0, 0xad, 0xd4, 0xa2, 0xaf, 0x9c, 0xa4, 0x72, 0xc0,
  0xb7, 0xfd, 0x93, 0x26, 0x36, 0x3f, 0xf7, 0xcc, 0x34, 0xa5, 0xe5, 0xf1, 0x71, 0xd8, 0x31, 0x15,
  0x04, 0xc7, 0x23, 0xc3, 0x18, 0x96, 0x05, 0x9a, 0x07, 0x12, 0x80, 0xe2, 0xeb, 0x27, 0xb2, 0x75,
  0x09, 0x83, 0x2c, 0x1a, 0x1b, 0x6e, 0x5a, 0xa0, 0x52, 0x3b, 0xd6, 0xb3, 0x29, 0xe3, 0x2f, 0x84,
  0x53, 0xd1, 0x00, 0xed, 0x20, 0xfc, 0xb1, 0x5b, 0x6a, 0xcb, 0xbe, 0x39, 0x4a, 0x4c, 0x58, 0xcf,
  0xd0, 0xef, 0xaa, 0xfb, 0x43, 0x4d, 0x33, 0x85, 0x45, 0xf9, 0x02, 0x7f, 0x50, 0x3c, 0x9f, 0xa8,
  0x51, 0xa3, 0x40, 0x8f, 0x92, 0x9d, 0x38, 0xf5, 0xbc, 0xb6, 0xda, 0x21, 0x10, 0xff, 0xf3, 0xd2,
  0xcd, 0x0c, 0x13, 0xec, 0x5f, 0x97, 0x44, 0x17, 0xc4, 0xa7, 0x7e, 0x3d, 0x64, 0x5d, 0x19, 0x73,
  0x60, 0x81, 0x4f, 0xdc, 0x22, 0x2a, 0x90, 0x88, 0x46, 0xee, 0xb8, 0x14, 0xde, 0x5e, 0x0b, 0xdb,
  0xe0, 0x32, 0x3a, 0x0a, 0x49, 0x06, 0x24, 0x5c, 0xc2, 0xd3, 0xac, 0x62, 0x91, 0x95, 0xe4, 0x79,
  0xe7, 0xc8, 0x37, 0x6d, 0x8d, 0xd5, 0x4e, 0xa9, 0x6c, 0x56, 0xf4, 0xea, 0x65, 0x7a, 0xae, 0x08,
  0xba, 0x78, 0x25, 0x2e, 0x1c, 0xa6, 0xb4, 0xc6, 0xe8, 0xdd, 0x74, 0x1f, 0x4b, 0xbd, 0x8b, 0x8a,
  0x70, 0x3e, 0xb5, 0x66, 0x48, 0x03, 0xf6, 0x0e, 0x61, 0x35, 0x57, 0xb9, 0x86, 0xc1, 0x1d, 0x9e,
  0xe1, 0xf8, 0x98, 0x11, 0x69, 0xd9, 0x8e, 0x94, 0x9b, 0x1e, 0x87, 0xe9, 0xce, 0x55, 0x28, 0xdf,
  0x8c, 0xa1, 0x89, 0x0d, 0xbf, 0xe6, 0x42, 0x68, 0x41, 0x99, 0x2d, 0x0f, 0xb0, 0x54, 0xbb, 0x16]

def invsBoxTable : Bytes := [
  0x52, 0x09, 0x6a, 0xd5, 0x30, 0x36, 0xa5, 0x38, 0xbf, 0x40, 0xa3, 0x9e, 0x81, 0xf3, 0xd7, 0xfb,
  0x7c, 0xe3, 0x39, 0x82, 0x9b, 0x2f, 0xff, 0x87, 0x34, 0x8e, 0x43, 0x44, 0xc4, 0xde, 0xe9, 0xcb,
  0x54, 0x7b, 0x94, 0x32, 0xa6, 0xc2, 0x23, 0x3d, 0xee, 0x4c, 0x95, 0x0b, 0x42, 0xfa, 0xc3, 0x4e,
  0x08, 0x2e, 0xa1, 0x66, 0x28, 0xd9, 0x24, 0xb2, 0x76, 0x5b, 0xa2, 0x49, 0x6d, 0x8b, 0xd1, 0x25,
  0x72, 0xf8, 0xf6, 0x64, 0x86, 0x68, 0x98, 0x16, 0xd4, 0xa4, 0x5c, 0xcc, 0x5d, 0x65, 0xb6, 0x92,
  0x6c, 0x70, 0x48, 0x50, 0xfd, 0xed, 0xb9, 0xda, 0x5e, 0x15, 0x46, 0x57, 0xa7, 0x8d, 0x9d, 0x84,
  0x90, 0xd8, 0xab, 0x00, 0x8c, 0xbc, 0xd3, 0x0a, 0xf7, 0xe4, 0x58, 0x05, 0xb8, 0xb3, 0x45, 0x06,
  0xd0, 0x2c, 0x1e, 0x8f, 0xca, 0x3f, 0x0f, 0x02, 0xc1, 0xaf, 0xbd, 0x03, 0x01, 0x13, 0x8a, 0x6b,
  0x3a, 0x91, 0x11, 0x41, 0x4f, 0x67, 0xdc, 0xea, 0x97, 0xf2, 0xcf, 0xce, 0xf0, 0xb4, 0xe6, 0x73,
  0x96, 0xac, 0x74, 0x22, 0xe7, 0xad, 0x35, 0x85, 0xe2, 0xf9, 0x37, 0xe8, 0x1c, 0x75, 0xdf, 0x6e,
  0x47, 0xf1, 0x1a, 0x71, 0x1d, 0x29, 0xc5, 0x89, 0x6f, 0xb7, 0x62, 0x0e, 0xaa, 0x18, 0xbe, 0x1b,
  0xfc, 0x56, 0x3e, 0x4b, 0xc6, 0xd2, 0x79, 0x20, 0x9a, 0xdb, 0xc0, 0xfe, 0x78, 0xcd, 0x5a, 0xf4,
  0x1f, 0xdd, 0xa8, 0x33, 0x88, 0x07, 0xc7, 0x31, 0xb1, 0x12, 0x10, 0x59, 0x27, 0x80, 0xec, 0x5f,
  0x60, 0x51, 0x7f, 0xa9, 0x19, 0xb5, 0x4a, 0x0d, 0x2d, 0xe5, 0x7a, 0x9f, 0x93, 0xc9, 0x9c, 0xef,
  0xa0, 0xe0, 0x3b, 0x4d, 0xae, 0x2a, 0xf5, 0xb0, 0xc8, 0xeb, 0xbb, 0x3c, 0x83, 0x53, 0x99, 0x61,
  0x17, 0x2b, 0x04, 0x7e, 0xba, 0x77, 0xd6, 0x26, 0xe1, 0x69, 0x14, 0x63, 0x55, 0x21, 0x0c, 0x7d]

def sBox (x : UInt8) : UInt8 := sBoxTable.getD x.toNat 0

def invsBox (x : UInt8) : UInt8 := invsBoxTable.getD x.toNat 0

/-- `unsigned char [4][4]`, rows first. -/
abbrev Square := Vector (Vector UInt8 4) 4

abbrev Block := Vector UInt8 16

/-- The round keys `w[11][4][4]`. -/
abbrev Schedule := Vector Square 11

def square (f : Fin 4 → Fin 4 → UInt8) : Square := Vector.ofFn fun r => Vector.ofFn fun c => f r c

def cell (state : Square) (r c : Fin 4) : UInt8 := state[r][c]

def readState (input : Block) : Square :=
  square fun r c => input[(⟨c * 4 + r, by omega⟩ : Fin 16)]

def writeState (state : Square) : Block :=
  Vector.ofFn fun k => cell state (Fin.ofNat 4 k) (Fin.ofNat 4 (k / 4))

/-- One entry of `bw` from the one before. -/
def doubled (b : UInt8) : UInt8 := if b &&& 0x80 ≠ 0 then (b <<< 1) ^^^ 0x1b else b <<< 1

def FFmul (a b : UInt8) : UInt8 :=
  let bw := [b, doubled b, doubled (doubled b), doubled (doubled (doubled b))]
  bw.zipIdx.foldl
    (fun res x => if (a >>> UInt8.ofNat x.2) &&& 0x01 ≠ 0 then res ^^^ x.1 else res) 0

def subBytes (state : Square) : Square := square fun r c => sBox (cell state r c)

def invSubBytes (state : Square) : Square := square fun r c => invsBox (cell state r c)

def shiftRows (state : Square) : Square := square fun r c => cell state r (c + r)

def invShiftRows (state : Square) : Square := square fun r c => cell state r (c - r)

/-- An entry of a column times a circulant matrix. -/
def product (m₀ m₁ m₂ m₃ t₀ t₁ t₂ t₃ : UInt8) : UInt8 :=
  FFmul m₀ t₀ ^^^ FFmul m₁ t₁ ^^^ FFmul m₂ t₂ ^^^ FFmul m₃ t₃

def mixWith (m₀ m₁ m₂ m₃ : UInt8) (state : Square) : Square :=
  square fun r c => product m₀ m₁ m₂ m₃ (cell state r c) (cell state (r + 1) c)
    (cell state (r + 2) c) (cell state (r + 3) c)

def mixColumns : Square → Square := mixWith 0x02 0x03 0x01 0x01

def invMixColumns : Square → Square := mixWith 0x0e 0x0b 0x0d 0x09

def addRoundKey (state k : Square) : Square := square fun r c => cell state r c ^^^ cell k r c

def rc : List UInt8 := [0x01, 0x02, 0x04, 0x08, 0x10, 0x20, 0x40, 0x80, 0x1b, 0x36]

/-- Column `j` of a round key from the key before. -/
def keyColumn (rc : UInt8) (last : Square) (r : Fin 4) : Nat → UInt8
  | 0 => cell last r 0 ^^^ (sBox (cell last (r + 1) 3) ^^^ if r = 0 then rc else 0)
  | j + 1 => cell last r (Fin.ofNat 4 (j + 1)) ^^^ keyColumn rc last r j

def nextKey (last : Square) (rc : UInt8) : Square := square fun r c => keyColumn rc last r c

def roundKey (w : Schedule) (i : Fin 11) : Square := w[i]

def keyExpansion (key : Block) : Schedule :=
  Vector.ofFn fun i => (rc.take i).foldl nextKey (readState key)

/-- Round `i + 1`. -/
def round (w : Schedule) (state : Square) (i : Fin 10) : Square :=
  let state := shiftRows (subBytes state)
  let state := if i.succ ≠ 10 then mixColumns state else state
  addRoundKey state (roundKey w i.succ)

def cipher (w : Schedule) (input : Block) : Block :=
  writeState (Fin.foldl 10 (round w) (addRoundKey (readState input) (roundKey w 0)))

def invRound (w : Schedule) (i : Fin 10) (state : Square) : Square :=
  let state := addRoundKey (invSubBytes (invShiftRows state)) (roundKey w i.castSucc)
  if i ≠ 0 then invMixColumns state else state

/-- The loop counts down from 9. -/
def invCipher (w : Schedule) (input : Block) : Block :=
  writeState (Fin.foldr 10 (invRound w) (addRoundKey (readState input) (roundKey w 10)))

@[simp] theorem cell_square (f : Fin 4 → Fin 4 → UInt8) (r c : Fin 4) :
    cell (square f) r c = f r c := by
  simp [cell, square]

theorem square_ext {s t : Square} (same : ∀ r c, cell s r c = cell t r c) : s = t :=
  Vector.ext fun r below => Vector.ext fun c inside => same ⟨r, below⟩ ⟨c, inside⟩

theorem tables_inverse : sBoxTable.map invsBox = (List.range 256).map UInt8.ofNat := by
  decide +kernel

theorem invsBox_sBox (x : UInt8) : invsBox (sBox x) = x := by
  have below : x.toNat < 256 := x.toNat_lt
  have long : sBoxTable.length = 256 := by decide +kernel
  have inside : x.toNat < sBoxTable.length := long ▸ below
  have entry := congrArg (fun table => table[x.toNat]?) tables_inverse
  simp only [List.getElem?_map, List.getElem?_range below, List.getElem?_eq_getElem inside,
    Option.map_some, UInt8.ofNat_toNat, Option.some.injEq] at entry
  rw [sBox, List.getD_eq_getElem?_getD, List.getElem?_eq_getElem inside, Option.getD_some, entry]

theorem invSubBytes_subBytes (state : Square) : invSubBytes (subBytes state) = state := by
  refine square_ext fun r c => ?_
  rw [invSubBytes, cell_square, subBytes, cell_square, invsBox_sBox]

theorem invShiftRows_shiftRows (state : Square) : invShiftRows (shiftRows state) = state := by
  refine square_ext fun r c => ?_
  rw [invShiftRows, cell_square, shiftRows, cell_square, sub_add_cancel]

theorem addRoundKey_twice (state k : Square) :
    addRoundKey (addRoundKey state k) k = state := by
  refine square_ext fun r c => ?_
  rw [addRoundKey, cell_square, addRoundKey, cell_square, UInt8.xor_assoc, UInt8.xor_self,
    UInt8.xor_zero]

theorem readState_writeState (state : Square) : readState (writeState state) = state := by
  refine square_ext fun r c => ?_
  have row : Fin.ofNat 4 (c * 4 + r) = r := Fin.ext (by simp)
  have column : Fin.ofNat 4 ((c * 4 + r) / 4) = c := Fin.ext (by simp; omega)
  rw [readState, cell_square, writeState, Fin.getElem_fin, Vector.getElem_ofFn, row, column]

theorem writeState_readState (input : Block) : writeState (readState input) = input := by
  refine Vector.ext fun k below => ?_
  have index : k / 4 % 4 * 4 + k % 4 = k := by omega
  rw [writeState, Vector.getElem_ofFn, readState, cell_square]
  simp [index]

theorem doubled_xor (x y : UInt8) : doubled (x ^^^ y) = doubled x ^^^ doubled y := by
  have top : ∀ b : UInt8, b &&& 0x80 = 0 ∨ b &&& 0x80 = 0x80 := forall_byte (by decide +kernel)
  have split : (x ^^^ y) &&& 0x80 = (x &&& 0x80) ^^^ (y &&& 0x80) := by
    rw [← UInt8.toBitVec_inj]
    refine BitVec.eq_of_getLsbD_eq fun i _ => ?_
    simp [Bool.and_xor_distrib_right]
  rw [doubled, doubled, doubled, split, UInt8.shiftLeft_xor]
  rcases top x with hx | hx <;> rcases top y with hy | hy <;> rw [hx, hy] <;> simp
  · ac_rfl
  · ac_rfl
  · have cancel : ∀ a b c : UInt8, a ^^^ b = a ^^^ c ^^^ (b ^^^ c) := fun a b c => by
      rw [UInt8.xor_comm b c, ← UInt8.xor_assoc, UInt8.xor_assoc a c c, UInt8.xor_self,
        UInt8.xor_zero]
    exact cancel _ _ _

/-- A multiple is the sum of the doublings that the bits of the factor select. -/
theorem FFmul_eq (a b : UInt8) :
    FFmul a b = (if a &&& 0x01 ≠ 0 then b else 0) ^^^
      (if (a >>> 1) &&& 0x01 ≠ 0 then doubled b else 0) ^^^
      (if (a >>> 2) &&& 0x01 ≠ 0 then doubled (doubled b) else 0) ^^^
      (if (a >>> 3) &&& 0x01 ≠ 0 then doubled (doubled (doubled b)) else 0) := by
  have step : ∀ (p : Prop) [Decidable p] (res x : UInt8),
      (if p then res ^^^ x else res) = res ^^^ if p then x else 0 := by
    intro p _ res x
    by_cases taken : p
    · rw [if_pos taken, if_pos taken]
    · rw [if_neg taken, if_neg taken, UInt8.xor_zero]
  simp only [FFmul, List.zipIdx_cons, List.zipIdx_nil, List.foldl_cons, List.foldl_nil, step]
  rw [UInt8.zero_xor]
  rfl

/-- The factors of the two column steps, as sums of doublings. -/
theorem FFmul_factors (x : UInt8) :
    FFmul 0x01 x = x ∧ FFmul 0x02 x = doubled x ∧ FFmul 0x03 x = x ^^^ doubled x ∧
      FFmul 0x09 x = x ^^^ doubled (doubled (doubled x)) ∧
      FFmul 0x0b x = x ^^^ doubled x ^^^ doubled (doubled (doubled x)) ∧
      FFmul 0x0d x = x ^^^ doubled (doubled x) ^^^ doubled (doubled (doubled x)) ∧
      FFmul 0x0e x =
        doubled x ^^^ doubled (doubled x) ^^^ doubled (doubled (doubled x)) := by
  refine ⟨?_, ?_, ?_, ?_, ?_, ?_, ?_⟩ <;> rw [FFmul_eq] <;> simp +decide

/-- The matrices of the two column steps are inverse: of the sum only the first entry is left. -/
theorem product_product (t₀ t₁ t₂ t₃ : UInt8) :
    product 0x0e 0x0b 0x0d 0x09 (product 0x02 0x03 0x01 0x01 t₀ t₁ t₂ t₃)
      (product 0x02 0x03 0x01 0x01 t₁ t₂ t₃ t₀) (product 0x02 0x03 0x01 0x01 t₂ t₃ t₀ t₁)
      (product 0x02 0x03 0x01 0x01 t₃ t₀ t₁ t₂) = t₀ := by
  have cancel : ∀ a b : UInt8, a ^^^ (a ^^^ b) = b := fun a b => by
    rw [← UInt8.xor_assoc, UInt8.xor_self, UInt8.zero_xor]
  have swap : ∀ a b c : UInt8, a ^^^ (b ^^^ c) = b ^^^ (a ^^^ c) := fun a b c => by ac_rfl
  simp only [product, FFmul_factors, doubled_xor, UInt8.xor_assoc]
  simp only [cancel, swap, UInt8.xor_comm, UInt8.xor_self, UInt8.xor_zero]

theorem invMixColumns_mixColumns (state : Square) : invMixColumns (mixColumns state) = state := by
  refine square_ext fun r c => ?_
  have once : ∀ r : Fin 4, r + 1 + 1 = r + 2 ∧ r + 1 + 2 = r + 3 ∧ r + 1 + 3 = r ∧
      r + 2 + 1 = r + 3 ∧ r + 2 + 2 = r ∧ r + 2 + 3 = r + 1 ∧ r + 3 + 1 = r ∧
      r + 3 + 2 = r + 1 ∧ r + 3 + 3 = r + 2 := by decide
  simp only [invMixColumns, mixColumns, mixWith, cell_square, once r, product_product]

/-- What a backward step undoes is undone of all steps. -/
theorem foldr_undoes {α β : Type} {n : Nat} (forward : α → Fin n → α) (backward : Fin n → β → β)
    (view : α → β) (step : ∀ i x, backward i (view (forward x i)) = view x) (x : α) :
    Fin.foldr n backward (view (Fin.foldl n forward x)) = view x := by
  induction n generalizing x with
  | zero => simp
  | succ n ih =>
    rw [Fin.foldl_succ_last, Fin.foldr_succ_last, step]
    exact ih _ _ (fun i x => step i.castSucc x) x

/-- The square between the substitution and the next key is where the decryption is. -/
theorem invRound_round (w : Schedule) (i : Fin 9) (state : Square) :
    invRound w i.succ (shiftRows (subBytes (round w state i.castSucc))) =
      shiftRows (subBytes state) := by
  have inner : i.castSucc.succ ≠ 10 := by
    intro last
    have := congrArg Fin.val last
    simp at this
    omega
  rw [invRound, invShiftRows_shiftRows, invSubBytes_subBytes, round, if_pos inner,
    if_pos (Fin.succ_ne_zero i), ← Fin.succ_castSucc, addRoundKey_twice,
    invMixColumns_mixColumns]

theorem rounds_undone (w : Schedule) (state : Square) :
    Fin.foldr 10 (invRound w) (addRoundKey (Fin.foldl 10 (round w)
      (addRoundKey state (roundKey w 0))) (roundKey w 10)) = state := by
  have last : ∀ state, addRoundKey (round w state (Fin.last 9)) (roundKey w 10) =
      shiftRows (subBytes state) := fun state => addRoundKey_twice _ _
  have first : ∀ state, invRound w 0 (shiftRows (subBytes (addRoundKey state (roundKey w 0)))) =
      state := by
    intro state
    rw [invRound, invShiftRows_shiftRows, invSubBytes_subBytes, if_neg (not_not.mpr rfl)]
    exact addRoundKey_twice _ _
  have inner := foldr_undoes (fun state i => round w state i.castSucc) (fun i => invRound w i.succ)
    (fun state => shiftRows (subBytes state)) (invRound_round w)
    (addRoundKey state (roundKey w 0))
  rw [Fin.foldl_succ_last, Fin.foldr_succ, last, inner, first]

theorem cipher_leftInverse (w : Schedule) : Function.LeftInverse (invCipher w) (cipher w) := by
  intro input
  rw [invCipher, cipher, readState_writeState, rounds_undone, writeState_readState]

/-- **The decryption gives back every block.** -/
theorem invCipher_cipher (w : Schedule) (input : Block) : invCipher w (cipher w input) = input :=
  cipher_leftInverse w input

end AesBlock
