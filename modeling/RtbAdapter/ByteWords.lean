import Mathlib.Data.List.Induction
import Mathlib.Tactic

/-!
# Machine words over byte strings

Two's complement conversions between C integer types and the network byte
order of unsigned words. Widths are explicit: nothing below assumes that a
length fits the word it is stored in.
-/

namespace ByteWords

abbrev Bytes := List UInt8

/-- The bytes of a text literal. -/
def ascii (s : String) : Bytes := s.toList.map fun c => UInt8.ofNat c.toNat

/-- Conversion to a 32-bit `int`. -/
def toInt32 (x : Int) : Int := x.bmod (2 ^ 32)

/-- Conversion to a 32-bit `unsigned int`. -/
def toUInt32 (x : Int) : Nat := (x % 2 ^ 32).toNat

/-- Conversion of an `int` to a 64-bit unsigned size. -/
def toULong (x : Int) : Nat := (x % 2 ^ 64).toNat

theorem forall_byte {p : UInt8 → Prop} (all : ∀ n < 256, p (UInt8.ofNat n)) (x : UInt8) : p x := by
  have here := all x.toNat x.toNat_lt
  rwa [UInt8.ofNat_toNat] at here

theorem toInt32_of_range {x : Int} (lower : -2 ^ 31 ≤ x) (upper : x < 2 ^ 31) :
    toInt32 x = x := by
  apply Int.bmod_eq_of_le <;> omega

theorem toInt32_range (x : Int) : -2 ^ 31 ≤ toInt32 x ∧ toInt32 x < 2 ^ 31 := by
  have upper := Int.bmod_lt (x := x) (m := 2 ^ 32) (by decide)
  have lower := Int.le_bmod (x := x) (m := 2 ^ 32) (by decide)
  simp only [toInt32]
  omega

theorem toInt32_sub_dvd (x : Int) : ∃ k : Int, toInt32 x = x + k * 2 ^ 32 := by
  refine ⟨-Int.bdiv x (2 ^ 32), ?_⟩
  rw [toInt32, Int.bmod_eq_self_sub_mul_bdiv]
  push_cast
  ring

theorem toInt32_eq_iff {x y : Int} (lower : -2 ^ 31 ≤ y) (upper : y < 2 ^ 31) :
    toInt32 x = y ↔ ∃ k : Int, x = y + k * 2 ^ 32 := by
  constructor
  · intro same
    obtain ⟨k, hk⟩ := toInt32_sub_dvd x
    exact ⟨-k, by omega⟩
  · rintro ⟨k, rfl⟩
    obtain ⟨j, hj⟩ := toInt32_sub_dvd (y + k * 2 ^ 32)
    have range := toInt32_range (y + k * 2 ^ 32)
    omega

theorem toULong_of_nonneg {x : Int} (lower : 0 ≤ x) (upper : x < 2 ^ 64) :
    toULong x = x.toNat := by
  simp only [toULong, Int.emod_eq_of_lt lower upper]

/-- A negative `int` turns into a size far beyond any buffer. -/
theorem toULong_of_neg {x : Int} (lower : -2 ^ 31 ≤ x) (negative : x < 0) :
    2 ^ 63 ≤ toULong x := by
  simp only [toULong]
  omega

/-- The low `w` bytes of `n`, most significant first. -/
def beBytes : Nat → Nat → Bytes
  | 0, _ => []
  | w + 1, n => beBytes w (n / 256) ++ [UInt8.ofNat n]

/-- The unsigned value of a big-endian byte string. -/
def beNat (bs : Bytes) : Nat := bs.foldl (fun n b => 256 * n + b.toNat) 0

@[simp] theorem beBytes_length (w n : Nat) : (beBytes w n).length = w := by
  induction w generalizing n with
  | zero => rfl
  | succ w ih => simp [beBytes, ih]

@[simp] theorem beNat_concat (bs : Bytes) (b : UInt8) :
    beNat (bs ++ [b]) = 256 * beNat bs + b.toNat := by
  simp [beNat]

theorem beNat_beBytes (w n : Nat) : beNat (beBytes w n) = n % 256 ^ w := by
  induction w generalizing n with
  | zero => simp [beBytes, beNat, Nat.mod_one]
  | succ w ih =>
    have low : (UInt8.ofNat n).toNat = n % 256 := by simp
    rw [beBytes, beNat_concat, ih, low, pow_succ', Nat.mod_mul]
    omega

theorem beNat_beBytes_of_lt {w n : Nat} (h : n < 256 ^ w) : beNat (beBytes w n) = n := by
  rw [beNat_beBytes, Nat.mod_eq_of_lt h]

theorem testBit_foldl {α : Type} (bits : α → UInt32) (xs : List α) (start : UInt32) (k : Nat) :
    (xs.foldl (fun mask x => mask ||| bits x) start).toNat.testBit k ↔
      start.toNat.testBit k ∨ ∃ x ∈ xs, (bits x).toNat.testBit k := by
  induction xs generalizing start with
  | nil => simp
  | cons x xs ih =>
    rw [List.foldl_cons, ih, UInt32.toNat_or, Nat.testBit_or, Bool.or_eq_true, or_assoc]
    simp

theorem testBit_one {i : Nat} (small : i < 32) (k : Nat) :
    ((1 : UInt32) <<< UInt32.ofNat i).toNat.testBit k ↔ i = k := by
  have value : ((1 : UInt32) <<< UInt32.ofNat i).toNat = 2 ^ i := by
    have bound : 2 ^ i < 2 ^ 32 := Nat.pow_lt_pow_right (by decide) small
    rw [UInt32.toNat_shiftLeft, UInt32.toNat_ofNat_of_lt' (by rw [UInt32.size]; omega),
      Nat.mod_eq_of_lt small, UInt32.toNat_one, Nat.one_shiftLeft, Nat.mod_eq_of_lt bound]
  rw [value, Nat.testBit_two_pow, decide_eq_true_eq]

end ByteWords
