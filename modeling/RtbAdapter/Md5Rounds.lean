import RtbAdapter.ByteWords

/-!
# The rounds of MD5

There are two copies of the algorithm, one for the engine and one for the hash ring. Each puts a
block of 64 bytes into four words in 64 operations, the words taking turns.
-/

namespace Md5Rounds

open ByteWords

structure Words where
  a : UInt32
  b : UInt32
  c : UInt32
  d : UInt32
  deriving DecidableEq

def F (x y z : UInt32) : UInt32 := (x &&& y) ||| (~~~x &&& z)

def G (x y z : UInt32) : UInt32 := (x &&& z) ||| (y &&& ~~~z)

def H (x y z : UInt32) : UInt32 := x ^^^ y ^^^ z

def I (x y z : UInt32) : UInt32 := y ^^^ (x ||| ~~~z)

def rotateLeft (x n : UInt32) : UInt32 := (x <<< n) ||| (x >>> (32 - n))

/-- An operation on the words in their order, with a word of the block, a shift and a constant. -/
structure Line where
  operation : Words → UInt32 → UInt32 → UInt32 → UInt32
  k : Nat
  s : UInt32
  ac : UInt32

/-- The first word is set, and the last one is the first of the next operation. -/
def Words.turn (x : List UInt32) (w : Words) (line : Line) : Words :=
  ⟨w.d, line.operation w (x.getD line.k 0) line.s line.ac, w.b, w.c⟩

def Words.add (w other : Words) : Words :=
  ⟨w.a + other.a, w.b + other.b, w.c + other.c, w.d + other.d⟩

section Engine

/-- `a` is added to and rotated, and then `b` is added. -/
def added (f : UInt32 → UInt32 → UInt32 → UInt32) (w : Words) (x s ac : UInt32) : UInt32 :=
  rotateLeft (w.a + (f w.b w.c w.d + x + ac)) s + w.b

def FF : Words → UInt32 → UInt32 → UInt32 → UInt32 := added F

def GG : Words → UInt32 → UInt32 → UInt32 → UInt32 := added G

def HH : Words → UInt32 → UInt32 → UInt32 → UInt32 := added H

def II : Words → UInt32 → UInt32 → UInt32 → UInt32 := added I

def transformLines : List Line :=
  [⟨FF, 0, 7, 0xd76aa478⟩, ⟨FF, 1, 12, 0xe8c7b756⟩, ⟨FF, 2, 17, 0x242070db⟩,
    ⟨FF, 3, 22, 0xc1bdceee⟩, ⟨FF, 4, 7, 0xf57c0faf⟩, ⟨FF, 5, 12, 0x4787c62a⟩,
    ⟨FF, 6, 17, 0xa8304613⟩, ⟨FF, 7, 22, 0xfd469501⟩, ⟨FF, 8, 7, 0x698098d8⟩,
    ⟨FF, 9, 12, 0x8b44f7af⟩, ⟨FF, 10, 17, 0xffff5bb1⟩, ⟨FF, 11, 22, 0x895cd7be⟩,
    ⟨FF, 12, 7, 0x6b901122⟩, ⟨FF, 13, 12, 0xfd987193⟩, ⟨FF, 14, 17, 0xa679438e⟩,
    ⟨FF, 15, 22, 0x49b40821⟩, ⟨GG, 1, 5, 0xf61e2562⟩, ⟨GG, 6, 9, 0xc040b340⟩,
    ⟨GG, 11, 14, 0x265e5a51⟩, ⟨GG, 0, 20, 0xe9b6c7aa⟩, ⟨GG, 5, 5, 0xd62f105d⟩,
    ⟨GG, 10, 9, 0x2441453⟩, ⟨GG, 15, 14, 0xd8a1e681⟩, ⟨GG, 4, 20, 0xe7d3fbc8⟩,
    ⟨GG, 9, 5, 0x21e1cde6⟩, ⟨GG, 14, 9, 0xc33707d6⟩, ⟨GG, 3, 14, 0xf4d50d87⟩,
    ⟨GG, 8, 20, 0x455a14ed⟩, ⟨GG, 13, 5, 0xa9e3e905⟩, ⟨GG, 2, 9, 0xfcefa3f8⟩,
    ⟨GG, 7, 14, 0x676f02d9⟩, ⟨GG, 12, 20, 0x8d2a4c8a⟩, ⟨HH, 5, 4, 0xfffa3942⟩,
    ⟨HH, 8, 11, 0x8771f681⟩, ⟨HH, 11, 16, 0x6d9d6122⟩, ⟨HH, 14, 23, 0xfde5380c⟩,
    ⟨HH, 1, 4, 0xa4beea44⟩, ⟨HH, 4, 11, 0x4bdecfa9⟩, ⟨HH, 7, 16, 0xf6bb4b60⟩,
    ⟨HH, 10, 23, 0xbebfbc70⟩, ⟨HH, 13, 4, 0x289b7ec6⟩, ⟨HH, 0, 11, 0xeaa127fa⟩,
    ⟨HH, 3, 16, 0xd4ef3085⟩, ⟨HH, 6, 23, 0x4881d05⟩, ⟨HH, 9, 4, 0xd9d4d039⟩,
    ⟨HH, 12, 11, 0xe6db99e5⟩, ⟨HH, 15, 16, 0x1fa27cf8⟩, ⟨HH, 2, 23, 0xc4ac5665⟩,
    ⟨II, 0, 6, 0xf4292244⟩, ⟨II, 7, 10, 0x432aff97⟩, ⟨II, 14, 15, 0xab9423a7⟩,
    ⟨II, 5, 21, 0xfc93a039⟩, ⟨II, 12, 6, 0x655b59c3⟩, ⟨II, 3, 10, 0x8f0ccc92⟩,
    ⟨II, 10, 15, 0xffeff47d⟩, ⟨II, 1, 21, 0x85845dd1⟩, ⟨II, 8, 6, 0x6fa87e4f⟩,
    ⟨II, 15, 10, 0xfe2ce6e0⟩, ⟨II, 6, 15, 0xa3014314⟩, ⟨II, 13, 21, 0x4e0811a1⟩,
    ⟨II, 4, 6, 0xf7537e82⟩, ⟨II, 11, 10, 0xbd3af235⟩, ⟨II, 2, 15, 0x2ad7d2bb⟩,
    ⟨II, 9, 21, 0xeb86d391⟩]

def md5Decode : Bytes → List UInt32
  | b₀ :: b₁ :: b₂ :: b₃ :: input =>
    (b₀.toUInt32 ||| b₁.toUInt32 <<< 8 ||| b₂.toUInt32 <<< 16 ||| b₃.toUInt32 <<< 24) ::
      md5Decode input
  | _ => []

def md5Transform (state : Words) (block : Bytes) : Words :=
  state.add (transformLines.foldl (Words.turn (md5Decode block)) state)

end Engine

section Ring

/-- `t` is summed up from the left. -/
def set (f : UInt32 → UInt32 → UInt32 → UInt32) (w : Words) (x s ti : UInt32) : UInt32 :=
  rotateLeft (w.a + f w.b w.c w.d + x + ti) s + w.b

def setF : Words → UInt32 → UInt32 → UInt32 → UInt32 := set F

def setG : Words → UInt32 → UInt32 → UInt32 → UInt32 := set G

def setH : Words → UInt32 → UInt32 → UInt32 → UInt32 := set H

def setI : Words → UInt32 → UInt32 → UInt32 → UInt32 := set I

def tMask : UInt32 := ~~~0

def processLines : List Line :=
  [⟨setF, 0, 7, tMask ^^^ 0x28955b87⟩, ⟨setF, 1, 12, tMask ^^^ 0x173848a9⟩,
    ⟨setF, 2, 17, 0x242070db⟩, ⟨setF, 3, 22, tMask ^^^ 0x3e423111⟩,
    ⟨setF, 4, 7, tMask ^^^ 0x0a83f050⟩, ⟨setF, 5, 12, 0x4787c62a⟩,
    ⟨setF, 6, 17, tMask ^^^ 0x57cfb9ec⟩, ⟨setF, 7, 22, tMask ^^^ 0x02b96afe⟩,
    ⟨setF, 8, 7, 0x698098d8⟩, ⟨setF, 9, 12, tMask ^^^ 0x74bb0850⟩,
    ⟨setF, 10, 17, tMask ^^^ 0x0000a44e⟩, ⟨setF, 11, 22, tMask ^^^ 0x76a32841⟩,
    ⟨setF, 12, 7, 0x6b901122⟩, ⟨setF, 13, 12, tMask ^^^ 0x02678e6c⟩,
    ⟨setF, 14, 17, tMask ^^^ 0x5986bc71⟩, ⟨setF, 15, 22, 0x49b40821⟩,
    ⟨setG, 1, 5, tMask ^^^ 0x09e1da9d⟩, ⟨setG, 6, 9, tMask ^^^ 0x3fbf4cbf⟩,
    ⟨setG, 11, 14, 0x265e5a51⟩, ⟨setG, 0, 20, tMask ^^^ 0x16493855⟩,
    ⟨setG, 5, 5, tMask ^^^ 0x29d0efa2⟩, ⟨setG, 10, 9, 0x02441453⟩,
    ⟨setG, 15, 14, tMask ^^^ 0x275e197e⟩, ⟨setG, 4, 20, tMask ^^^ 0x182c0437⟩,
    ⟨setG, 9, 5, 0x21e1cde6⟩, ⟨setG, 14, 9, tMask ^^^ 0x3cc8f829⟩,
    ⟨setG, 3, 14, tMask ^^^ 0x0b2af278⟩, ⟨setG, 8, 20, 0x455a14ed⟩,
    ⟨setG, 13, 5, tMask ^^^ 0x561c16fa⟩, ⟨setG, 2, 9, tMask ^^^ 0x03105c07⟩,
    ⟨setG, 7, 14, 0x676f02d9⟩, ⟨setG, 12, 20, tMask ^^^ 0x72d5b375⟩,
    ⟨setH, 5, 4, tMask ^^^ 0x0005c6bd⟩, ⟨setH, 8, 11, tMask ^^^ 0x788e097e⟩,
    ⟨setH, 11, 16, 0x6d9d6122⟩, ⟨setH, 14, 23, tMask ^^^ 0x021ac7f3⟩,
    ⟨setH, 1, 4, tMask ^^^ 0x5b4115bb⟩, ⟨setH, 4, 11, 0x4bdecfa9⟩,
    ⟨setH, 7, 16, tMask ^^^ 0x0944b49f⟩, ⟨setH, 10, 23, tMask ^^^ 0x4140438f⟩,
    ⟨setH, 13, 4, 0x289b7ec6⟩, ⟨setH, 0, 11, tMask ^^^ 0x155ed805⟩,
    ⟨setH, 3, 16, tMask ^^^ 0x2b10cf7a⟩, ⟨setH, 6, 23, 0x04881d05⟩,
    ⟨setH, 9, 4, tMask ^^^ 0x262b2fc6⟩, ⟨setH, 12, 11, tMask ^^^ 0x1924661a⟩,
    ⟨setH, 15, 16, 0x1fa27cf8⟩, ⟨setH, 2, 23, tMask ^^^ 0x3b53a99a⟩,
    ⟨setI, 0, 6, tMask ^^^ 0x0bd6ddbb⟩, ⟨setI, 7, 10, 0x432aff97⟩,
    ⟨setI, 14, 15, tMask ^^^ 0x546bdc58⟩, ⟨setI, 5, 21, tMask ^^^ 0x036c5fc6⟩,
    ⟨setI, 12, 6, 0x655b59c3⟩, ⟨setI, 3, 10, tMask ^^^ 0x70f3336d⟩,
    ⟨setI, 10, 15, tMask ^^^ 0x00100b82⟩, ⟨setI, 1, 21, tMask ^^^ 0x7a7ba22e⟩,
    ⟨setI, 8, 6, 0x6fa87e4f⟩, ⟨setI, 15, 10, tMask ^^^ 0x01d3191f⟩,
    ⟨setI, 6, 15, tMask ^^^ 0x5cfebceb⟩, ⟨setI, 13, 21, 0x4e0811a1⟩,
    ⟨setI, 4, 6, tMask ^^^ 0x08ac817d⟩, ⟨setI, 11, 10, tMask ^^^ 0x42c50dca⟩,
    ⟨setI, 2, 15, 0x2ad7d2bb⟩, ⟨setI, 9, 21, tMask ^^^ 0x14792c6e⟩]

/-- `X`: the words in the memory of a little-endian machine, which the loop for other machines
adds up. -/
def blockWords : Bytes → List UInt32
  | b₀ :: b₁ :: b₂ :: b₃ :: data =>
    (b₀.toUInt32 + b₁.toUInt32 <<< 8 + b₂.toUInt32 <<< 16 + b₃.toUInt32 <<< 24) ::
      blockWords data
  | _ => []

def md5Process (abcd : Words) (data : Bytes) : Words :=
  abcd.add (processLines.foldl (Words.turn (blockWords data)) abcd)

end Ring

theorem set_eq (f : UInt32 → UInt32 → UInt32 → UInt32) : set f = added f := by
  funext w x s ti
  rw [set, added, UInt32.add_assoc w.a, UInt32.add_assoc w.a]

theorem processLines_eq : processLines = transformLines := by
  simp only [processLines, setF, setG, setH, setI, set_eq]
  rfl

/-- Bits above those of a number are added to it. -/
theorem or_shifted {x y : UInt32} {b : UInt8} {n : Nat} (low : x.toNat < 2 ^ n) (room : n + 8 ≤ 32)
    (same : y.toNat = b.toNat * 2 ^ n) : x ||| y = x + y ∧ (x + y).toNat < 2 ^ (n + 8) := by
  have byte := b.toNat_lt
  have disjoint : x.toNat ||| y.toNat = x.toNat + y.toNat := by
    rw [same, Nat.or_comm, ← Nat.shiftLeft_eq, ← Nat.shiftLeft_add_eq_or_of_lt low, Nat.add_comm]
  have below : x.toNat + y.toNat < 2 ^ (n + 8) := by
    rw [same, Nat.pow_add]
    have := Nat.mul_le_mul_right (2 ^ n) (Nat.le_of_lt_succ byte)
    omega
  have fits : 2 ^ (n + 8) ≤ 2 ^ 32 := Nat.pow_le_pow_right (by decide) room
  have sum : (x + y).toNat = x.toNat + y.toNat := by
    rw [UInt32.toNat_add, Nat.mod_eq_of_lt (by omega)]
  refine ⟨?_, sum ▸ below⟩
  apply UInt32.toNat_inj.mp
  rw [UInt32.toNat_or, disjoint, sum]

theorem toNat_shifted (b : UInt8) {n : UInt32} (room : n.toNat + 8 ≤ 32) :
    (b.toUInt32 <<< n).toNat = b.toNat * 2 ^ n.toNat := by
  have byte := b.toNat_lt
  have fits : 2 ^ (8 + n.toNat) ≤ 2 ^ 32 := Nat.pow_le_pow_right (by decide) (by omega)
  rw [UInt32.toNat_shiftLeft, UInt8.toNat_toUInt32, Nat.mod_eq_of_lt (a := n.toNat) (by omega),
    Nat.shiftLeft_eq, Nat.mod_eq_of_lt]
  calc b.toNat * 2 ^ n.toNat < 2 ^ 8 * 2 ^ n.toNat :=
        Nat.mul_lt_mul_of_pos_right byte (Nat.two_pow_pos _)
    _ = 2 ^ (8 + n.toNat) := (Nat.pow_add ..).symm
    _ ≤ 2 ^ 32 := fits

theorem word_eq (b₀ b₁ b₂ b₃ : UInt8) :
    b₀.toUInt32 + b₁.toUInt32 <<< 8 + b₂.toUInt32 <<< 16 + b₃.toUInt32 <<< 24 =
      b₀.toUInt32 ||| b₁.toUInt32 <<< 8 ||| b₂.toUInt32 <<< 16 ||| b₃.toUInt32 <<< 24 := by
  have low : b₀.toUInt32.toNat < 2 ^ 8 := b₀.toNat_lt
  obtain ⟨one, low₁⟩ := or_shifted low (by decide) (toNat_shifted b₁ (n := 8) (by decide))
  obtain ⟨two, low₂⟩ := or_shifted low₁ (by decide) (toNat_shifted b₂ (n := 16) (by decide))
  obtain ⟨three, -⟩ := or_shifted low₂ (by decide) (toNat_shifted b₃ (n := 24) (by decide))
  rw [one, two, three]

theorem blockWords_eq (data : Bytes) : blockWords data = md5Decode data := by
  fun_induction blockWords data with
  | case1 b₀ b₁ b₂ b₃ data ih => rw [md5Decode, ih, word_eq]
  | case2 data short =>
    match data, short with
    | [], _ => rfl
    | [_], _ => rfl
    | [_, _], _ => rfl
    | [_, _, _], _ => rfl
    | b₀ :: b₁ :: b₂ :: b₃ :: data, short => exact (short _ _ _ _ _ rfl).elim

/-- The two copies put a block into the words alike. -/
theorem md5Process_eq : md5Process = md5Transform := by
  funext abcd data
  rw [md5Process, md5Transform, processLines_eq, blockWords_eq]

end Md5Rounds
