import RtbAdapter.BlockStreams
import RtbAdapter.Md5Rounds

/-!
# Digests

Both copies of MD5 count the bits of a message in two words and keep the bytes that do not fill
a block in a buffer. Their digests are those of the padded message, however it comes in, so that
both give the same ones.
-/

namespace Md5Digests

open ByteWords BlockStreams Md5Rounds

/-- The low `w` bytes of a number, least significant first. -/
def leBytes : Nat → Nat → Bytes
  | 0, _ => []
  | w + 1, n => UInt8.ofNat n :: leBytes w (n / 256)

def start : Words := ⟨0x67452301, 0xEFCDAB89, 0x98BADCFE, 0x10325476⟩

def Words.bytes (w : Words) : Bytes :=
  leBytes 4 w.a.toNat ++ leBytes 4 w.b.toNat ++ leBytes 4 w.c.toNat ++ leBytes 4 w.d.toNat

/-- A bit that is set, as few zeros as complete a block with the length, and the length in bits. -/
def padding (n : Nat) : Bytes := 0x80 :: List.replicate ((119 - n % 64) % 64) 0

def digest (message : Bytes) : Bytes :=
  Words.bytes (absorb md5Transform 64 start
    (message ++ padding message.length ++ leBytes 8 (8 * message.length))).1

/-- `memcpy` into a buffer. -/
def copyTo (buffer : Bytes) (index : Nat) (data : Bytes) : Bytes :=
  buffer.take index ++ data ++ buffer.drop (index + data.length)

structure AdMd5 where
  count₀ : UInt32
  count₁ : UInt32
  state : Words
  buffer : Bytes

def md5Init (unset : Bytes) : AdMd5 := ⟨0, 0, start, unset⟩

/-- The lengths are below those for which a counter of the loop comes around. -/
def md5Update (h : AdMd5) (input : Bytes) : AdMd5 :=
  let inputlen := UInt32.ofNat input.length
  let index := ((h.count₀ >>> 3) &&& 0x3F).toNat
  let partlen := 64 - index
  let count₀ := h.count₀ + inputlen <<< 3
  let count₁ := (if count₀ < inputlen <<< 3 then h.count₁ + 1 else h.count₁) + inputlen >>> 29
  if partlen ≤ input.length then
    let buffer := copyTo h.buffer index (input.take partlen)
    let (state, rest) := absorb md5Transform 64 (md5Transform h.state buffer) (input.drop partlen)
    ⟨count₀, count₁, state, copyTo buffer 0 rest⟩
  else ⟨count₀, count₁, h.state, copyTo h.buffer index input⟩

def md5Encode (input : List UInt32) : Bytes :=
  input.flatMap fun x : UInt32 => [(x &&& 0xFF).toUInt8, ((x >>> 8) &&& 0xFF).toUInt8,
    ((x >>> 16) &&& 0xFF).toUInt8, ((x >>> 24) &&& 0xFF).toUInt8]

/-- `PADDING` -/
def pad : Bytes := 0x80 :: List.replicate 63 0

def md5Final (h : AdMd5) : Bytes :=
  let index := ((h.count₀ >>> 3) &&& 0x3F).toNat
  let padlen := if index < 56 then 56 - index else 120 - index
  let bits := md5Encode [h.count₀, h.count₁]
  let h := md5Update (md5Update h (pad.take padlen)) bits
  md5Encode [h.state.a, h.state.b, h.state.c, h.state.d]

def adMd5Run (unset src : Bytes) : Bytes := md5Final (md5Update (md5Init unset) src)

structure Md5State where
  count₀ : UInt32
  count₁ : UInt32
  abcd : Words
  buf : Bytes

def ringInit (unset : Bytes) : Md5State :=
  ⟨0, 0, ⟨0x67452301, tMask ^^^ 0x10325476, tMask ^^^ 0x67452301, 0x10325476⟩, unset⟩

/-- The whole blocks and the rest of them. -/
def appendBlocks (pms : Md5State) (p : Bytes) : Md5State :=
  let (abcd, left) := absorb md5Process 64 pms.abcd p
  ⟨pms.count₀, pms.count₁, abcd, if left = [] then pms.buf else copyTo pms.buf 0 left⟩

def md5Append (pms : Md5State) (data : Bytes) : Md5State :=
  let nbytes := UInt32.ofNat data.length
  let offset := ((pms.count₀ >>> 3) &&& 63).toNat
  let nbits := nbytes <<< 3
  if data = [] then pms
  else
    let count₁ := pms.count₁ + nbytes >>> 29
    let count₀ := pms.count₀ + nbits
    let count₁ := if count₀ < nbits then count₁ + 1 else count₁
    let pms := { pms with count₀, count₁ }
    if offset ≠ 0 then
      let copy := if offset + data.length > 64 then 64 - offset else data.length
      let buf := copyTo pms.buf offset (data.take copy)
      if offset + copy < 64 then { pms with buf }
      else appendBlocks { pms with buf, abcd := md5Process pms.abcd buf } (data.drop copy)
    else appendBlocks pms data

def md5Finish (pms : Md5State) : Bytes :=
  let counts := [pms.count₀, pms.count₁]
  let data := (List.range 8).map fun i =>
    (counts.getD (i / 4) 0 >>> (UInt32.ofNat (i % 4) <<< 3)).toUInt8
  let pms := md5Append pms (pad.take ((((55 : UInt32) - (pms.count₀ >>> 3)) &&& 63).toNat + 1))
  let pms := md5Append pms data
  let abcd := [pms.abcd.a, pms.abcd.b, pms.abcd.c, pms.abcd.d]
  (List.range 16).map fun i =>
    (abcd.getD (i / 4) 0 >>> (UInt32.ofNat (i % 4) <<< 3)).toUInt8

/-- `strlen` ends the string. -/
def conhashMd5Digest (unset instr : Bytes) : Bytes :=
  md5Finish (md5Append (ringInit unset) instr)

/-- Four words of the digest, summed up in a `long`. -/
def conhashHashDef (unset instr : Bytes) : Int :=
  let digest := conhashMd5Digest unset instr
  ((List.range 4).map fun i =>
    ((md5Decode (digest.drop (4 * i))).headD 0).toNat).sum

example : adMd5Run (List.replicate 64 7) (ascii "ABCDEFG") =
    [187, 116, 123, 61, 243, 19, 15, 225, 202, 74, 250, 147, 251, 125, 151, 201] := by
  decide +kernel

example : conhashMd5Digest (List.replicate 64 7) (ascii "ABCDEFG") =
    [187, 116, 123, 61, 243, 19, 15, 225, 202, 74, 250, 147, 251, 125, 151, 201] := by
  decide +kernel

/-- The counters have the bits of the message, the words its whole blocks and the buffer what is
left of it. -/
structure Holds (count₀ count₁ : UInt32) (words : Words) (buffer message : Bytes) : Prop where
  size : buffer.length = 64
  count : count₁.toNat * 2 ^ 32 + count₀.toNat = 8 * message.length % 2 ^ 64
  absorbed : absorb md5Transform 64 start message =
    (words, buffer.take (message.length % 64))

section Held

variable {count₀ count₁ : UInt32} {words words' : Words} {buffer buffer' message piece : Bytes}

theorem Holds.index (holds : Holds count₀ count₁ words buffer message) :
    ((count₀ >>> 3) &&& 63).toNat = message.length % 64 := by
  have bound := count₀.toNat_lt
  have count := holds.count
  have shifted : (count₀ >>> 3).toNat = count₀.toNat / 8 := by
    rw [UInt32.toNat_shiftRight]
    exact Nat.shiftRight_eq_div_pow _ 3
  rw [UInt32.toNat_and, shifted]
  change count₀.toNat / 8 &&& 2 ^ 6 - 1 = _
  rw [Nat.and_two_pow_sub_one_eq_mod]
  omega

/-- A carry goes from the one counter to the other. -/
theorem counts_add {n : Nat} (small : n < 2 ^ 28) :
    let bits := UInt32.ofNat n <<< 3
    let carry : UInt32 := if count₀ + bits < bits then 1 else 0
    (count₁ + carry + UInt32.ofNat n >>> 29).toNat * 2 ^ 32 + (count₀ + bits).toNat =
      (count₁.toNat * 2 ^ 32 + count₀.toNat + 8 * n) % 2 ^ 64 := by
  intro bits carry
  have value : (UInt32.ofNat n).toNat = n := UInt32.toNat_ofNat_of_lt' (by rw [UInt32.size]; omega)
  have low : bits.toNat = 8 * n := by
    rw [UInt32.toNat_shiftLeft, value]
    change n <<< 3 % 2 ^ 32 = _
    rw [Nat.shiftLeft_eq]
    omega
  have high : (UInt32.ofNat n >>> 29).toNat = 0 := by
    rw [UInt32.toNat_shiftRight, value]
    change n >>> 29 = 0
    rw [Nat.shiftRight_eq_div_pow]
    omega
  have bound := count₀.toNat_lt
  have bound' := count₁.toNat_lt
  have sum : (count₀ + bits).toNat = (count₀.toNat + 8 * n) % 2 ^ 32 := by
    rw [UInt32.toNat_add, low]
  rw [UInt32.toNat_add, UInt32.toNat_add, high, sum]
  by_cases carries : count₀ + bits < bits
  · have less := UInt32.lt_iff_toNat_lt.mp carries
    rw [sum, low] at less
    have one : carry.toNat = 1 := by
      simp only [carry, if_pos carries]
      rfl
    rw [one]
    omega
  · have less := mt UInt32.lt_iff_toNat_lt.mpr carries
    rw [sum, low] at less
    have zero : carry.toNat = 0 := by
      simp only [carry, if_neg carries]
      rfl
    rw [zero]
    omega

theorem Holds.taken (holds : Holds count₀ count₁ words buffer message)
    (small : piece.length < 2 ^ 28) (size : buffer'.length = 64)
    (fed : feed md5Transform 64 (words, buffer.take (message.length % 64)) piece =
      (words', buffer'.take ((message ++ piece).length % 64))) :
    Holds (count₀ + UInt32.ofNat piece.length <<< 3)
      ((if count₀ + UInt32.ofNat piece.length <<< 3 < UInt32.ofNat piece.length <<< 3
        then count₁ + 1 else count₁) + UInt32.ofNat piece.length >>> 29)
      words' buffer' (message ++ piece) where
  size := size
  count := by
    have sum := @counts_add count₀ count₁ _ small
    have count := holds.count
    have carried : (if count₀ + UInt32.ofNat piece.length <<< 3 < UInt32.ofNat piece.length <<< 3
        then count₁ + 1 else count₁) = count₁ +
        if count₀ + UInt32.ofNat piece.length <<< 3 < UInt32.ofNat piece.length <<< 3
        then 1 else 0 := by
      split
      · rfl
      · rw [UInt32.add_zero]
    rw [carried, sum, count, List.length_append]
    omega
  absorbed := by rw [absorb_append (by decide), holds.absorbed, fed]

section Buffer

variable {index : Nat}

theorem length_copyTo (size : buffer.length = 64) {index : Nat} {piece : Bytes}
    (room : index + piece.length ≤ 64) :
    (copyTo buffer index piece).length = 64 := by
  simp only [copyTo, List.length_append, List.length_take, List.length_drop]
  omega

theorem take_copyTo (size : buffer.length = 64) (index : Nat) (piece : Bytes)
    (room : index + piece.length ≤ 64) :
    (copyTo buffer index piece).take (index + piece.length) = buffer.take index ++ piece := by
  have front : (buffer.take index ++ piece).length = index + piece.length := by
    rw [List.length_append, List.length_take_of_le (by omega)]
  rw [copyTo, List.take_left' front]

theorem feed_short (size : buffer.length = 64) (room : index + piece.length < 64) :
    feed md5Transform 64 (words, buffer.take index) piece =
      (words, (copyTo buffer index piece).take (index + piece.length)) := by
  have short : (buffer.take index ++ piece).length < 64 := by
    rw [List.length_append, List.length_take_of_le (by omega)]
    exact room
  rw [feed, absorb_short short, take_copyTo size _ _ (by omega)]

theorem feed_long (size : buffer.length = 64) (inside : index ≤ 64)
    (long : 64 - index ≤ piece.length) :
    feed md5Transform 64 (words, buffer.take index) piece =
      absorb md5Transform 64
        (md5Transform words (copyTo buffer index (piece.take (64 - index))))
        (piece.drop (64 - index)) := by
  have taken : (piece.take (64 - index)).length = 64 - index := List.length_take_of_le long
  have whole : (copyTo buffer index (piece.take (64 - index))).take 64 =
      copyTo buffer index (piece.take (64 - index)) :=
    List.take_of_length_le (length_copyTo size (by omega)).le
  have block := take_copyTo size index (piece.take (64 - index)) (by omega)
  rw [taken, Nat.add_sub_cancel' inside, whole] at block
  rw [feed, block, ← absorb_block (by decide) (block ▸ length_copyTo size (by omega)),
    List.append_assoc, List.take_append_drop]

/-- What is left of a text is copied to the front of the buffer. -/
theorem left_copied (size : buffer.length = 64) (w : Words) (text : Bytes) :
    (copyTo buffer 0 (absorb md5Transform 64 w text).2).length = 64 ∧
      (copyTo buffer 0 (absorb md5Transform 64 w text).2).take (text.length % 64) =
        (absorb md5Transform 64 w text).2 := by
  have left := absorb_length md5Transform (n := 64) (by decide) w text
  have small := Nat.mod_lt text.length (show 0 < 64 by decide)
  refine ⟨length_copyTo size (by omega), ?_⟩
  have copied := take_copyTo size 0 (absorb md5Transform 64 w text).2 (by omega)
  rwa [left, Nat.zero_add, List.take_zero, List.nil_append] at copied

end Buffer

def AdMd5.Holds (h : AdMd5) (message : Bytes) : Prop :=
  Md5Digests.Holds h.count₀ h.count₁ h.state h.buffer message

def Md5State.Holds (pms : Md5State) (message : Bytes) : Prop :=
  Md5Digests.Holds pms.count₀ pms.count₁ pms.abcd pms.buf message

theorem md5Update_holds {h : AdMd5} (holds : h.Holds message) (piece : Bytes)
    (small : piece.length < 2 ^ 28) :
    (md5Update h piece).Holds (message ++ piece) := by
  have inside := Nat.mod_lt message.length (show 0 < 64 by decide)
  have size := holds.size
  have index := holds.index
  rw [AdMd5.Holds, md5Update]
  dsimp only
  rw [show ((h.count₀ >>> 3) &&& 0x3F).toNat = message.length % 64 from index]
  split
  · next long =>
    have block : (copyTo h.buffer (message.length % 64)
        (piece.take (64 - message.length % 64))).length = 64 :=
      length_copyTo size (by rw [List.length_take_of_le long]; omega)
    obtain ⟨size', waits⟩ := left_copied block
      (md5Transform h.state (copyTo h.buffer (message.length % 64)
        (piece.take (64 - message.length % 64)))) (piece.drop (64 - message.length % 64))
    refine holds.taken small size' ?_
    have rest : (message ++ piece).length % 64 =
        (piece.drop (64 - message.length % 64)).length % 64 := by
      rw [List.length_append, List.length_drop]
      omega
    rw [feed_long size inside.le long, rest, waits]
  · next short =>
    have room : message.length % 64 + piece.length < 64 := by omega
    refine holds.taken small (length_copyTo size room.le) ?_
    have rest : (message ++ piece).length % 64 = message.length % 64 + piece.length := by
      rw [List.length_append]
      omega
    rw [feed_short size room, rest]

/-- The buffer keeps what is left, which may be nothing. -/
theorem appendBlocks_left (pms : Md5State) (size : pms.buf.length = 64) (p : Bytes) :
    (appendBlocks pms p).buf.length = 64 ∧ absorb md5Transform 64 pms.abcd p =
      ((appendBlocks pms p).abcd, (appendBlocks pms p).buf.take (p.length % 64)) := by
  obtain ⟨size', waits⟩ := left_copied size pms.abcd p
  have left := absorb_length md5Transform (n := 64) (by decide) pms.abcd p
  rw [appendBlocks, md5Process_eq]
  dsimp only
  split
  · next none =>
    rw [none] at left
    refine ⟨size, ?_⟩
    rw [← left, List.length_nil, List.take_zero, ← none]
  · exact ⟨size', by rw [waits]⟩

theorem appendBlocks_holds {pms : Md5State} (holds : pms.Holds message) {counted : Md5State}
    (counts : counted.count₀ = pms.count₀ + UInt32.ofNat piece.length <<< 3)
    (counts' : counted.count₁ = (if pms.count₀ + UInt32.ofNat piece.length <<< 3 <
      UInt32.ofNat piece.length <<< 3 then pms.count₁ + 1 else pms.count₁) +
        UInt32.ofNat piece.length >>> 29)
    (small : piece.length < 2 ^ 28) (size : counted.buf.length = 64) {p : Bytes}
    (rest : (message ++ piece).length % 64 = p.length % 64)
    (fed : feed md5Transform 64 (pms.abcd, pms.buf.take (message.length % 64)) piece =
      absorb md5Transform 64 counted.abcd p) :
    (appendBlocks counted p).Holds (message ++ piece) := by
  obtain ⟨size', left⟩ := appendBlocks_left counted size p
  have taken := Holds.taken holds small size' (by rw [fed, left, rest])
  rw [← counts', ← counts] at taken
  exact taken

theorem md5Append_holds {pms : Md5State} (holds : pms.Holds message) (piece : Bytes)
    (small : piece.length < 2 ^ 28) : (md5Append pms piece).Holds (message ++ piece) := by
  have inside := Nat.mod_lt message.length (show 0 < 64 by decide)
  have size := holds.size
  have carried (p : Prop) [Decidable p] (c k : UInt32) :
      (if p then c + k + 1 else c + k) = (if p then c + 1 else c) + k := by
    split
    · rw [UInt32.add_assoc, UInt32.add_comm k, UInt32.add_assoc]
    · rfl
  have total : (message ++ piece).length = message.length + piece.length := List.length_append
  rw [md5Append]
  dsimp only
  rw [holds.index, carried, md5Process_eq]
  split
  · next none =>
    rw [none, List.append_nil]
    exact holds
  · split
    · by_cases long : 64 - message.length % 64 ≤ piece.length
      · have copy : (if message.length % 64 + piece.length > 64 then 64 - message.length % 64
            else piece.length) = 64 - message.length % 64 := by
          split <;> omega
        rw [copy, if_neg (by omega)]
        refine appendBlocks_holds holds rfl rfl small
          (length_copyTo size (by rw [List.length_take_of_le long]; omega)) ?_
          (feed_long size inside.le long)
        rw [List.length_drop]
        omega
      · have room : message.length % 64 + piece.length < 64 := by omega
        have rest : (message ++ piece).length % 64 = message.length % 64 + piece.length := by
          omega
        have copy : (if message.length % 64 + piece.length > 64 then 64 - message.length % 64
            else piece.length) = piece.length := if_neg (by omega)
        rw [copy, if_pos room, List.take_length]
        exact Holds.taken holds small (length_copyTo size room.le)
          (by rw [feed_short size room, rest])
    · next zero =>
      have aligned : message.length % 64 = 0 := by omega
      refine appendBlocks_holds holds rfl rfl small (by exact size) (by omega) ?_
      rw [aligned, List.take_zero, feed, List.nil_append]

end Held

theorem leBytes_add (w k n : Nat) : leBytes (w + k) n = leBytes w n ++ leBytes k (n / 256 ^ w) := by
  induction w generalizing n with
  | zero => rw [Nat.zero_add, pow_zero, Nat.div_one, leBytes, List.nil_append]
  | succ w ih =>
    rw [Nat.succ_add, leBytes, leBytes, ih, List.cons_append, Nat.div_div_eq_div_mul, pow_succ']

theorem leBytes_mod (w n : Nat) : leBytes w (n % 256 ^ w) = leBytes w n := by
  induction w generalizing n with
  | zero => rfl
  | succ w ih =>
    have low : UInt8.ofNat (n % 256 ^ (w + 1)) = UInt8.ofNat n := by
      apply UInt8.toNat_inj.mp
      rw [UInt8.toNat_ofNat', UInt8.toNat_ofNat', pow_succ']
      exact Nat.mod_mul_right_mod n 256 _
    have high : n % 256 ^ (w + 1) / 256 = n / 256 % 256 ^ w := by
      rw [pow_succ', Nat.mod_mul_right_div_self]
    rw [leBytes, leBytes, low, high, ih]

/-- The bytes of a word as they are shifted out. -/
theorem leBytes_word (x : UInt32) : leBytes 4 x.toNat =
    [x.toUInt8, (x >>> 8).toUInt8, (x >>> 16).toUInt8, (x >>> 24).toUInt8] := by
  have byte (n : Nat) (small : n < 32) :
      (x >>> UInt32.ofNat n).toUInt8 = UInt8.ofNat (x.toNat / 2 ^ n) := by
    apply UInt8.toNat_inj.mp
    rw [UInt32.toNat_toUInt8, UInt32.toNat_shiftRight, UInt8.toNat_ofNat',
      UInt32.toNat_ofNat_of_lt' (by rw [UInt32.size]; omega), Nat.mod_eq_of_lt small,
      Nat.shiftRight_eq_div_pow]
  have whole : x.toUInt8 = UInt8.ofNat x.toNat := rfl
  have one := byte 8 (by decide)
  have two := byte 16 (by decide)
  have three := byte 24 (by decide)
  simp only [leBytes, Nat.div_div_eq_div_mul, whole]
  exact congrArg _ (congrArg₂ _ one.symm (congrArg₂ _ two.symm (congrArg₂ _ three.symm rfl)))

theorem and_byte (x : UInt32) : (x &&& 0xFF).toUInt8 = x.toUInt8 := by
  apply UInt8.toNat_inj.mp
  rw [UInt32.toNat_toUInt8, UInt32.toNat_toUInt8, UInt32.toNat_and]
  change (x.toNat &&& 2 ^ 8 - 1) % 2 ^ 8 = _
  rw [Nat.and_two_pow_sub_one_eq_mod, Nat.mod_mod]

theorem md5Encode_eq (words : List UInt32) :
    md5Encode words = words.flatMap fun x => leBytes 4 x.toNat := by
  simp only [md5Encode, leBytes_word, and_byte]

/-- Four bytes are shifted out of each word. -/
theorem shifted_eq (words : List UInt32) : ((List.range (4 * words.length)).map fun i =>
    (words.getD (i / 4) 0 >>> (UInt32.ofNat (i % 4) <<< 3)).toUInt8) =
      words.flatMap fun x => leBytes 4 x.toNat := by
  induction words with
  | nil => rfl
  | cons x words ih =>
    have later (j : Nat) : (x :: words).getD ((4 + j) / 4) 0 = words.getD (j / 4) 0 := by
      rw [Nat.add_div_left _ (by decide), List.getD_cons_succ]
    have place (j : Nat) : (4 + j) % 4 = j % 4 := Nat.add_mod_left 4 j
    rw [List.length_cons, Nat.mul_succ, Nat.add_comm, List.range_add, List.map_append,
      List.flatMap_cons, ← ih, List.map_map, leBytes_word]
    simp only [Function.comp_def, later, place]
    rfl

/-- The counters are the length that is appended. -/
theorem Holds.lengthBytes {count₀ count₁ : UInt32} {words : Words} {buffer message : Bytes}
    (holds : Holds count₀ count₁ words buffer message) :
    [count₀, count₁].flatMap (fun x => leBytes 4 x.toNat) = leBytes 8 (8 * message.length) := by
  have bound := count₀.toNat_lt
  have count : count₁.toNat * 2 ^ 32 + count₀.toNat = 8 * message.length % 256 ^ 8 := holds.count
  have low : leBytes 4 count₀.toNat = leBytes 4 (8 * message.length % 256 ^ 8) := by
    rw [← count, ← leBytes_mod 4 (_ * _ + _)]
    congr 1
    omega
  have high : 8 * message.length % 256 ^ 8 / 256 ^ 4 = count₁.toNat := by
    rw [← count]
    omega
  rw [← leBytes_mod 8, leBytes_add 4 4, high, ← low]
  simp

theorem padding_eq (n : Nat) : padding n = pad.take (padding n).length := by
  have less := Nat.mod_lt (119 - n % 64) (show 0 < 64 by decide)
  have front : pad = 0x80 :: (List.replicate ((119 - n % 64) % 64) 0 ++
      List.replicate (63 - (119 - n % 64) % 64) 0) := by
    rw [← List.replicate_add, Nat.add_sub_cancel' (by omega), pad]
  rw [front, ← List.cons_append, ← padding, List.take_left' rfl]

theorem padding_length (n : Nat) : (padding n).length = (119 - n % 64) % 64 + 1 := by
  rw [padding, List.length_cons, List.length_replicate]

/-- What is held of a padded message. -/
theorem Holds.digest_eq {count₀ count₁ : UInt32} {words : Words} {buffer message : Bytes}
    (holds : Holds count₀ count₁ words buffer
      (message ++ padding message.length ++ leBytes 8 (8 * message.length))) :
    digest message = [words.a, words.b, words.c, words.d].flatMap fun x => leBytes 4 x.toNat := by
  rw [digest, holds.absorbed]
  simp [Words.bytes]

theorem length_leBytes (w n : Nat) : (leBytes w n).length = w := by
  induction w generalizing n with
  | zero => rfl
  | succ w ih => rw [leBytes, List.length_cons, ih]

theorem md5Final_holds {h : AdMd5} {message : Bytes} (holds : h.Holds message) :
    md5Final h = digest message := by
  have size := padding_length message.length
  have padlen : (if message.length % 64 < 56 then 56 - message.length % 64
      else 120 - message.length % 64) = (padding message.length).length := by
    split <;> omega
  have padded := md5Update_holds holds (padding message.length) (by omega)
  have whole := md5Update_holds padded (leBytes 8 (8 * message.length))
    (by rw [length_leBytes]; decide)
  rw [whole.digest_eq, md5Final]
  rw [show ((h.count₀ >>> 3) &&& 0x3F).toNat = message.length % 64 from holds.index, padlen,
    ← padding_eq, md5Encode_eq, md5Encode_eq, Holds.lengthBytes holds]

/-- The length of the padding, from the length with its sign turned. -/
theorem Holds.padlen {count₀ count₁ : UInt32} {words : Words} {buffer message : Bytes}
    (holds : Holds count₀ count₁ words buffer message) :
    (((55 : UInt32) - (count₀ >>> 3)) &&& 63).toNat + 1 = (padding message.length).length := by
  have bound := count₀.toNat_lt
  have count := holds.count
  have shifted : (count₀ >>> 3).toNat = count₀.toNat / 8 := by
    rw [UInt32.toNat_shiftRight]
    exact Nat.shiftRight_eq_div_pow _ 3
  have turned : ((55 : UInt32) - (count₀ >>> 3)).toNat =
      (2 ^ 32 - count₀.toNat / 8 + 55) % 2 ^ 32 := by
    rw [UInt32.toNat_sub, shifted]
    rfl
  rw [UInt32.toNat_and, turned, padding_length]
  change ((2 ^ 32 - count₀.toNat / 8 + 55) % 2 ^ 32 &&& 2 ^ 6 - 1) + 1 = _
  rw [Nat.and_two_pow_sub_one_eq_mod]
  omega

theorem md5Finish_holds {pms : Md5State} {message : Bytes} (holds : pms.Holds message) :
    md5Finish pms = digest message := by
  have size := padding_length message.length
  have padded := md5Append_holds holds (padding message.length) (by omega)
  have whole := md5Append_holds padded (leBytes 8 (8 * message.length))
    (by rw [length_leBytes]; decide)
  have data : ((List.range 8).map fun i => ([pms.count₀, pms.count₁].getD (i / 4) 0 >>>
      (UInt32.ofNat (i % 4) <<< 3)).toUInt8) = leBytes 8 (8 * message.length) :=
    (shifted_eq [pms.count₀, pms.count₁]).trans holds.lengthBytes
  rw [whole.digest_eq, md5Finish, Holds.padlen holds, ← padding_eq, data]
  exact shifted_eq _

/-- A place on the ring is never negative. -/
theorem conhashHashDef_range (unset instr : Bytes) :
    0 ≤ conhashHashDef unset instr ∧ conhashHashDef unset instr < 2 ^ 34 := by
  have word (i : Nat) :=
    ((md5Decode ((conhashMd5Digest unset instr).drop (4 * i))).headD 0).toNat_lt
  have zero := word 0
  have one := word 1
  have two := word 2
  have three := word 3
  simp only [conhashHashDef, List.range_succ, List.range_zero, List.nil_append, List.cons_append,
    List.map_cons, List.map_nil, List.sum_cons, List.sum_nil]
  omega

theorem holds_start {unset : Bytes} (size : unset.length = 64) : Holds 0 0 start unset [] where
  size := size
  count := by simp
  absorbed := by
    rw [absorb_short (by decide)]
    rfl

theorem md5Init_holds {unset : Bytes} (size : unset.length = 64) : (md5Init unset).Holds [] :=
  holds_start size

theorem ringInit_holds {unset : Bytes} (size : unset.length = 64) :
    (ringInit unset).Holds [] := by
  have same : (⟨0x67452301, tMask ^^^ 0x10325476, tMask ^^^ 0x67452301, 0x10325476⟩ : Words) =
      start := by decide
  rw [Md5State.Holds, ringInit, same]
  exact holds_start size

variable {pieces : List Bytes} {message : Bytes}

theorem foldl_md5Update {h : AdMd5} (holds : h.Holds message)
    (small : ∀ piece ∈ pieces, piece.length < 2 ^ 28) :
    (pieces.foldl md5Update h).Holds (message ++ pieces.flatten) := by
  induction pieces generalizing h message with
  | nil =>
    rw [List.flatten_nil, List.append_nil]
    exact holds
  | cons piece pieces ih =>
    obtain ⟨here, later⟩ := List.forall_mem_cons.mp small
    rw [List.flatten_cons, ← List.append_assoc]
    exact ih (md5Update_holds holds piece here) later

theorem foldl_md5Append {pms : Md5State} (holds : pms.Holds message)
    (small : ∀ piece ∈ pieces, piece.length < 2 ^ 28) :
    (pieces.foldl md5Append pms).Holds (message ++ pieces.flatten) := by
  induction pieces generalizing pms message with
  | nil =>
    rw [List.flatten_nil, List.append_nil]
    exact holds
  | cons piece pieces ih =>
    obtain ⟨here, later⟩ := List.forall_mem_cons.mp small
    rw [List.flatten_cons, ← List.append_assoc]
    exact ih (md5Append_holds holds piece here) later

/-- **Both copies give the digest of the padded message.** Neither the pieces that a message comes
in nor what stood in the buffers before make a difference. -/
theorem digest_pieces {unset unset' : Bytes} (size : unset.length = 64)
    (size' : unset'.length = 64) (small : ∀ piece ∈ pieces, piece.length < 2 ^ 28) :
    md5Final (pieces.foldl md5Update (md5Init unset)) = digest pieces.flatten ∧
      md5Finish (pieces.foldl md5Append (ringInit unset')) = digest pieces.flatten := by
  have engine := foldl_md5Update (md5Init_holds size) small
  have ring := foldl_md5Append (ringInit_holds size') small
  exact ⟨md5Final_holds engine, md5Finish_holds ring⟩

/-- A message that is cut inside a block and at the end of one. -/
theorem digest_pieces_cut :
    md5Final ([ascii "AB", List.replicate 62 67, [], ascii "D"].foldl md5Update
        (md5Init (List.replicate 64 0))) =
      digest [ascii "AB", List.replicate 62 67, [], ascii "D"].flatten ∧
    md5Finish ([ascii "AB", List.replicate 62 67, [], ascii "D"].foldl md5Append
        (ringInit (List.replicate 64 255))) =
      digest [ascii "AB", List.replicate 62 67, [], ascii "D"].flatten :=
  digest_pieces List.length_replicate List.length_replicate (by decide +kernel)

end Md5Digests
